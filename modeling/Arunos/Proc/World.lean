import Arunos.Proc.Process
import Mathlib.Algebra.BigOperators.Group.Finset.Basic
import Mathlib.Algebra.Order.BigOperators.Group.Finset
import Mathlib.Data.Fintype.Basic

/-!
# Proc — World — the memory of all processes together

`sp : Fin 10 → Option Space` says which slots have an address space and what it holds.
`World L k sp` says that the kernel state `k` is made of these spaces: the accounts of the
allocator balance with the spaces' pages, their page tables and the tables of `kernel_vm` as the
holders; each slot's fields and page tables describe its space; and `kernel_vm` maps the kernel.

An operation on slot `i` changes nothing that belongs to the others: `Frame i sp k k'`.  The rule
`World.update` puts the world together again from the frame and the new content of the slot.
-/

namespace Arunos

variable {σ : Type} {L : Layout} {k k' k'' : Kernel σ} {sp : Fin 10 → Option Space} {i : Fin 10}

/-! ### Pages and tables of the slots -/

/-- The pages of a slot. -/
def slotPages : Option Space → Multiset Nat
  | none => 0
  | some s => s.pages

/-- The page tables of a slot. -/
def slotTables (vm : SectionTable) : Option Space → Multiset Nat
  | none => 0
  | some _ => tables vm

/-- The pages of all slots. -/
def allPages (sp : Fin 10 → Option Space) : Multiset Nat := ∑ i, slotPages (sp i)

/-- The page tables of `kernel_vm` and of all slots. -/
def allTables (k : Kernel σ) (sp : Fin 10 → Option Space) : Multiset Nat :=
  tables k.kernelVm + ∑ i, slotTables (k.processVm i) (sp i)

/-- The pages of the slots other than `i`. -/
def otherPages (i : Fin 10) (sp : Fin 10 → Option Space) : Multiset Nat :=
  ∑ j ∈ Finset.univ.erase i, slotPages (sp j)

/-- The page tables of `kernel_vm` and of the slots other than `i`. -/
def otherTables (i : Fin 10) (k : Kernel σ) (sp : Fin 10 → Option Space) : Multiset Nat :=
  tables k.kernelVm + ∑ j ∈ Finset.univ.erase i, slotTables (k.processVm j) (sp j)

theorem allPages_eq (i : Fin 10) (sp : Fin 10 → Option Space) :
    allPages sp = slotPages (sp i) + otherPages i sp :=
  (Finset.add_sum_erase _ _ (Finset.mem_univ i)).symm

theorem allTables_eq (i : Fin 10) (k : Kernel σ) (sp : Fin 10 → Option Space) :
    allTables k sp = slotTables (k.processVm i) (sp i) + otherTables i k sp := by
  rw [allTables, otherTables, ← Finset.add_sum_erase _ _ (Finset.mem_univ i), add_left_comm]

@[simp] theorem otherPages_update (i : Fin 10) (sp : Fin 10 → Option Space) (o : Option Space) :
    otherPages i (Function.update sp i o) = otherPages i sp := by
  refine Finset.sum_congr rfl fun j hj => ?_
  rw [Function.update_of_ne (Finset.ne_of_mem_erase hj)]

@[simp] theorem otherTables_update (i : Fin 10) (k : Kernel σ) (sp : Fin 10 → Option Space)
    (o : Option Space) : otherTables i k (Function.update sp i o) = otherTables i k sp := by
  unfold otherTables
  refine congrArg _ (Finset.sum_congr rfl fun j hj => ?_)
  rw [Function.update_of_ne (Finset.ne_of_mem_erase hj)]

theorem live_of_space {s : Space} (h : sp i = some s) : sp i ≠ none := by
  rw [h]
  exact Option.some_ne_none s

/-- A slot in use is not a free one. -/
theorem slot_ne {j : Fin 10} (hj : sp j ≠ none) (hi : sp i = none) : j ≠ i := by
  rintro rfl
  exact hj hi

theorem mem_otherPages {p : Nat} : p ∈ otherPages i sp ↔ ∃ j ≠ i, p ∈ slotPages (sp j) := by
  simp [otherPages, Multiset.mem_sum]

theorem mem_otherTables {t : Nat} : t ∈ otherTables i k sp ↔
    t ∈ tables k.kernelVm ∨ ∃ j ≠ i, t ∈ slotTables (k.processVm j) (sp j) := by
  simp [otherTables, Multiset.mem_sum]

/-- The blocks of the slots other than `i` are blocks of the slots other than `j`, when the slots
in use are the same ones there. -/
theorem held_other_mono {j : Fin 10} {sp' : Fin 10 → Option Space} (hk : k'.kernelVm = k.kernelVm)
    (h : ∀ l ≠ i, sp l ≠ none → l ≠ j ∧ sp' l = sp l ∧ k'.processVm l = k.processVm l) :
    ∀ c ∈ held (otherPages i sp) (otherTables i k sp),
      c ∈ held (otherPages j sp') (otherTables j k' sp') := by
  refine held_mono (fun p hp => ?_) fun t ht => ?_
  · obtain ⟨l, hl, hp⟩ := mem_otherPages.mp hp
    have hlive : sp l ≠ none := fun e => by simp [e, slotPages] at hp
    obtain ⟨hlj, hsp, -⟩ := h l hl hlive
    exact mem_otherPages.mpr ⟨l, hlj, hsp ▸ hp⟩
  · rcases mem_otherTables.mp ht with ht | ⟨l, hl, ht⟩
    · exact mem_otherTables.mpr (.inl (hk ▸ ht))
    · have hlive : sp l ≠ none := fun e => by simp [e, slotTables] at ht
      obtain ⟨hlj, hsp, hvm⟩ := h l hl hlive
      exact mem_otherTables.mpr (.inr ⟨l, hlj, by rwa [hsp, hvm]⟩)

/-! ### The world -/

/-- The pages the kernel gives to the allocator. -/
def bootPages (L : Layout) : Multiset Nat :=
  (pageRange L.allocatableStart 0x82000000 : Multiset Nat) +
    (pageRange 0x82000000 0x90000000 : Multiset Nat)

/-- The arena of a running kernel.  Ten slots with two stacks and 256 heap pages, and eleven section
tables with 264 sections, are the most there can be. -/
def bootArena (L : Layout) : Arena where
  pages := bootPages L
  pageBudget := 2580
  tableBudget := 2904
  nodup := by
    refine Multiset.nodup_add.mpr ⟨pageRange_nodup _ _, pageRange_nodup _ _, ?_⟩
    refine Multiset.disjoint_left.mpr fun {p} h₁ h₂ => ?_
    have := mem_pageRange.mp h₁
    have := mem_pageRange.mp h₂
    omega
  aligned p hp := by
    rcases Multiset.mem_add.mp hp with h | h <;> exact (mem_pageRange.mp h).1
  lo p hp := by
    have := L.base_le
    simp only [bootPages, Layout.allocatableStart, Multiset.mem_add, Multiset.mem_coe,
      mem_pageRange] at hp
    omega
  hi p hp := by
    simp only [bootPages, Multiset.mem_add, Multiset.mem_coe, mem_pageRange] at hp
    omega

@[simp] theorem bootArena_pageBudget (L : Layout) : (bootArena L).pageBudget = 2580 := rfl

@[simp] theorem bootArena_tableBudget (L : Layout) : (bootArena L).tableBudget = 2904 := rfl

/-- The fields of the process in slot `i` describe the space `s`. -/
structure Describes (p : Process) (i : Fin 10) (s : Space) : Prop where
  pid : p.pid = i.val + 1
  vm : p.vm = some i
  kernelStack : p.kernelStack = s.kernelStack
  userStack : p.userStack = s.userStack
  heapSize : p.heapSize = 4096 * s.frames.length
  frames : s.frames.length ≤ 256

/-- The other fields do not matter. -/
theorem Describes.congr {p p' : Process} {s : Space} (h : Describes p i s)
    (e : (p'.pid, p'.vm, p'.kernelStack, p'.userStack, p'.heapSize) =
      (p.pid, p.vm, p.kernelStack, p.userStack, p.heapSize)) : Describes p' i s := by
  simp only [Prod.mk.injEq] at e
  obtain ⟨h₁, h₂, h₃, h₄, h₅⟩ := e
  exact ⟨h₁.trans h.pid, h₂.trans h.vm, h₃.trans h.kernelStack, h₄.trans h.userStack,
    h₅.trans h.heapSize, h.frames⟩

/-- The fields and the page tables of slot `i` describe the space `s`. -/
structure SlotOk (L : Layout) (k : Kernel σ) (i : Fin 10) (s : Space) : Prop where
  fields : Describes (k.processTable i) i s
  inside : sections (k.processVm i) ⊆ spaceSections
  walk : descriptor k.mem.ram (k.processVm i) = spaceMap L s

/-- The kernel's state is made of the spaces `sp`. -/
structure World (L : Layout) (k : Kernel σ) (sp : Fin 10 → Option Space) : Prop where
  pool : Pool (bootArena L) k.mem (allPages sp) (allTables k sp)
  slot : ∀ i s, sp i = some s → SlotOk L k i s
  kernelInside : sections k.kernelVm ⊆ spaceSections
  kernelWalk : descriptor k.mem.ram k.kernelVm = kernelMap L

/-- From `k` to `k'` nothing changes that belongs to a slot in use other than `i` or to the kernel,
and the slots not in use stay so. -/
structure Frame (i : Fin 10) (sp : Fin 10 → Option Space) (k k' : Kernel σ) : Prop where
  table : ∀ j ≠ i, sp j ≠ none → k'.processTable j = k.processTable j
  vms : ∀ j ≠ i, sp j ≠ none → k'.processVm j = k.processVm j
  unused : ∀ j ≠ i, sp j = none → (k'.processTable j).state = (k.processTable j).state
  kernelVm : k'.kernelVm = k.kernelVm
  current : k'.currentProcess = k.currentProcess
  ttb : k'.ttb = k.ttb
  round : k'.roundRobinIndex = k.roundRobinIndex
  fat : k'.fat = k.fat
  ram : SameOn (held (otherPages i sp) (otherTables i k sp)) k.mem.ram k'.mem.ram

theorem Frame.otherTables_eq (h : Frame i sp k k') : otherTables i k' sp = otherTables i k sp := by
  unfold otherTables
  rw [h.kernelVm]
  refine congrArg _ (Finset.sum_congr rfl fun j hj => ?_)
  cases hsp : sp j with
  | none => rfl
  | some s =>
      rw [h.vms j (Finset.ne_of_mem_erase hj) (live_of_space hsp)]

theorem Frame.refl (i : Fin 10) (sp : Fin 10 → Option Space) (k : Kernel σ) : Frame i sp k k :=
  ⟨fun _ _ _ => rfl, fun _ _ _ => rfl, fun _ _ _ => rfl, rfl, rfl, rfl, rfl, rfl, .refl _ _⟩

theorem Frame.trans (h : Frame i sp k k') (h' : Frame i sp k' k'') : Frame i sp k k'' where
  table j hj hl := (h'.table j hj hl).trans (h.table j hj hl)
  vms j hj hl := (h'.vms j hj hl).trans (h.vms j hj hl)
  unused j hj hl := (h'.unused j hj hl).trans (h.unused j hj hl)
  kernelVm := h'.kernelVm.trans h.kernelVm
  current := h'.current.trans h.current
  ttb := h'.ttb.trans h.ttb
  round := h'.round.trans h.round
  fat := h'.fat.trans h.fat
  ram := h.ram.trans (h.otherTables_eq ▸ h'.ram)

/-- The frame of `i` does not depend on what `i` holds. -/
theorem Frame.update {o : Option Space} (h : Frame i (Function.update sp i o) k k') :
    Frame i sp k k' := by
  have hne : ∀ j ≠ i, Function.update sp i o j = sp j := fun j hj => Function.update_of_ne hj _ _
  obtain ⟨h₁, h₂, h₃, h₄, h₅, h₆, h₇, h₈, h₉⟩ := h
  rw [otherPages_update, otherTables_update] at h₉
  exact ⟨fun j hj hl => h₁ j hj (hne j hj ▸ hl), fun j hj hl => h₂ j hj (hne j hj ▸ hl),
    fun j hj hl => h₃ j hj ((hne j hj).trans hl), h₄, h₅, h₆, h₇, h₈, h₉⟩

/-! ### Taking a slot out and putting it back -/

theorem SlotOk.frame {j : Fin 10} {s : Space} (h : SlotOk L k j s)
    (ht : k'.processTable j = k.processTable j) (hv : k'.processVm j = k.processVm j)
    (hw : descriptor k'.mem.ram (k.processVm j) = descriptor k.mem.ram (k.processVm j)) :
    SlotOk L k' j s := by
  refine ⟨ht ▸ h.fields, hv ▸ h.inside, ?_⟩
  rw [hv, hw, h.walk]

/-- **The world with a new slot.**  The others are framed; the slot's content is given. -/
theorem World.update (h : World L k sp) (hf : Frame i sp k k') (o : Option Space)
    (hpool : Pool (bootArena L) k'.mem (slotPages o + otherPages i sp)
      (slotTables (k'.processVm i) o + otherTables i k sp))
    (hslot : ∀ s, o = some s → SlotOk L k' i s) : World L k' (Function.update sp i o) := by
  have hsame : ∀ vm, (∀ t ∈ tables vm, t ∈ otherTables i k sp) →
      descriptor k'.mem.ram vm = descriptor k.mem.ram vm := by
    intro vm hvm
    refine descriptor_congr ?_
    exact hf.ram.mono fun t ht => Multiset.mem_add.mpr (.inr (hvm t ht))
  refine ⟨?_, ?_, ?_, ?_⟩
  · rw [allPages_eq i, allTables_eq i, Function.update_self, otherPages_update,
      otherTables_update, hf.otherTables_eq]
    exact hpool
  · intro j s hj
    by_cases hji : j = i
    · subst hji
      rw [Function.update_self] at hj
      exact hslot s hj
    · rw [Function.update_of_ne hji] at hj
      have hl := live_of_space hj
      refine (h.slot j s hj).frame (hf.table j hji hl) (hf.vms j hji hl) (hsame _ fun t ht => ?_)
      refine mem_otherTables.mpr (.inr ⟨j, hji, ?_⟩)
      rw [hj]
      exact ht
  · rw [hf.kernelVm]
    exact h.kernelInside
  · rw [hf.kernelVm, hsame _ fun t ht => Multiset.mem_add.mpr (.inl ht), h.kernelWalk]

/-- The kernel with another memory and another content of slot `i`. -/
def Kernel.setSlot (k : Kernel σ) (i : Fin 10) (m : Mem) (vm : SectionTable) (p : Process) :
    Kernel σ :=
  ((k.setMem m).setVm i vm).setEntry i p

section SetSlot

variable {m m' : Mem} {vm vm' : SectionTable} {p p' : Process}

@[simp] theorem setSlot_mem : (k.setSlot i m vm p).mem = m := rfl

@[simp] theorem setSlot_processVm : (k.setSlot i m vm p).processVm i = vm :=
  Function.update_self _ _ _

@[simp] theorem setSlot_processTable : (k.setSlot i m vm p).processTable i = p :=
  Function.update_self _ _ _

@[simp] theorem setSlot_setMem : (k.setSlot i m vm p).setMem m' = k.setSlot i m' vm p := rfl

@[simp] theorem setSlot_setVm : (k.setSlot i m vm p).setVm i vm' = k.setSlot i m vm' p := by
  simp [Kernel.setSlot, Kernel.setVm, Kernel.setEntry, Kernel.setMem]

@[simp] theorem setSlot_setEntry : (k.setSlot i m vm p).setEntry i p' = k.setSlot i m vm p' := by
  simp [Kernel.setSlot, Kernel.setVm, Kernel.setEntry, Kernel.setMem]

@[simp] theorem setSlot_setSlot : (k.setSlot i m vm p).setSlot i m' vm' p' =
    k.setSlot i m' vm' p' := by
  simp [Kernel.setSlot, Kernel.setVm, Kernel.setEntry, Kernel.setMem]

theorem setSlot_self (k : Kernel σ) (i : Fin 10) :
    k.setSlot i k.mem (k.processVm i) (k.processTable i) = k := by
  simp [Kernel.setSlot, Kernel.setVm, Kernel.setEntry, Kernel.setMem]

theorem setMem_eq (k : Kernel σ) (i : Fin 10) (m : Mem) :
    k.setMem m = k.setSlot i m (k.processVm i) (k.processTable i) := by
  simp [Kernel.setSlot, Kernel.setVm, Kernel.setEntry, Kernel.setMem]

end SetSlot

theorem frame_setSlot {m : Mem} {vm : SectionTable} {p : Process}
    (hs : SameOn (held (otherPages i sp) (otherTables i k sp)) k.mem.ram m.ram) :
    Frame i sp k (k.setSlot i m vm p) :=
  ⟨fun _ hj _ => Function.update_of_ne hj _ _, fun _ hj _ => Function.update_of_ne hj _ _,
    fun _ hj _ => congrArg _ (Function.update_of_ne hj _ _), rfl, rfl, rfl, rfl, rfl, hs⟩

/-- The world after slot `i` got the space `s`. -/
theorem World.setSlot (h : World L k sp) {m : Mem} {vm : SectionTable} {p : Process} {s : Space}
    (hw : Walks (bootArena L) (s.pages + otherPages i sp) (otherTables i k sp) spaceSections vm
      (spaceMap L s) m)
    (hs : SameOn (held (otherPages i sp) (otherTables i k sp)) k.mem.ram m.ram)
    (hp : Describes p i s) : World L (k.setSlot i m vm p) (Function.update sp i (some s)) := by
  refine h.update (frame_setSlot hs) _ ?_ ?_
  · rw [setSlot_processVm]
    exact hw.pool
  · rintro s ⟨⟩
    refine ⟨?_, ?_, ?_⟩
    · rw [setSlot_processTable]
      exact hp
    · rw [setSlot_processVm]
      exact hw.inside
    · rw [setSlot_processVm]
      exact hw.walk

/-- The walk of one slot, with the others as the remaining holders. -/
theorem World.focus (h : World L k sp) {s : Space} (hi : sp i = some s) :
    Walks (bootArena L) (s.pages + otherPages i sp) (otherTables i k sp) spaceSections
      (k.processVm i) (spaceMap L s) k.mem := by
  have hs := h.slot i s hi
  have hp := h.pool
  rw [allPages_eq i, allTables_eq i, hi] at hp
  exact ⟨hp, hs.inside, hs.walk⟩

/-- The holders without an unused slot. -/
theorem World.focus_none (h : World L k sp) (hi : sp i = none) :
    Pool (bootArena L) k.mem (otherPages i sp) (otherTables i k sp) := by
  have hp := h.pool
  rwa [allPages_eq i, allTables_eq i, hi, slotPages, slotTables, zero_add, zero_add] at hp

/-- The world depends on the slots' fields, the tables and memory. -/
theorem World.congr (h : World L k sp) (hm : k'.mem = k.mem) (hk : k'.kernelVm = k.kernelVm)
    (hv : k'.processVm = k.processVm)
    (ht : ∀ j s, sp j = some s → SlotOk L k j s → SlotOk L k' j s) : World L k' sp := by
  refine ⟨?_, fun j s hj => ht j s hj (h.slot j s hj), hk ▸ h.kernelInside, ?_⟩
  · have hp := h.pool
    unfold allTables at hp ⊢
    rwa [hm, hk, hv]
  · rw [hm, hk, h.kernelWalk]

/-- The world does not see who runs, the disk or its volume. -/
theorem World.same (h : World L k sp) (hm : k'.mem = k.mem) (hk : k'.kernelVm = k.kernelVm)
    (hv : k'.processVm = k.processVm) (ht : k'.processTable = k.processTable) : World L k' sp :=
  h.congr hm hk hv fun j _ _ hs => by
    have hwalk : descriptor k'.mem.ram (k.processVm j) = descriptor k.mem.ram (k.processVm j) := by
      rw [hm]
    exact hs.frame (congrFun ht j) (congrFun hv j) hwalk

@[simp] theorem setEntry_processTable {p : Process} : (k.setEntry i p).processTable i = p :=
  Function.update_self _ _ _

theorem setEntry_of_ne {j : Fin 10} (hj : j ≠ i) {p : Process} :
    (k.setEntry i p).processTable j = k.processTable j := Function.update_of_ne hj _ _

/-- Assignments to fields that do not concern memory keep the world and frame the others. -/
theorem World.setEntry (h : World L k sp) {p : Process}
    (hp : ∀ s, sp i = some s → Describes p i s) :
    World L (k.setEntry i p) sp ∧ Frame i sp k (k.setEntry i p) := by
  refine ⟨h.congr rfl rfl rfl fun j s hj hs => ?_, ?_⟩
  · refine ⟨?_, hs.inside, hs.walk⟩
    by_cases hji : j = i
    · subst hji
      rw [setEntry_processTable]
      exact hp s hj
    · rw [setEntry_of_ne hji]
      exact hs.fields
  · exact ⟨fun j hj _ => Function.update_of_ne hj _ _, fun _ _ _ => rfl,
      fun j hj _ => congrArg _ (Function.update_of_ne hj _ _), rfl, rfl, rfl, rfl, rfl, .refl _ _⟩

/-! ### Reading and writing a slot's pages -/

/-- The kernel with other bytes in memory. -/
def Kernel.setRam (k : Kernel σ) (r : Bytes) : Kernel σ := k.setMem { k.mem with ram := r }

/-- The kernel with another state of the disk driver. -/
def Kernel.setDev (k : Kernel σ) (dev : σ) : Kernel σ := { k with dev := dev }

/-- **Writes into a slot's own pages** keep the world and frame the others. -/
theorem World.write (h : World L k sp) {s : Space} (hi : sp i = some s) {r : Bytes}
    (hr : WritesOnly s.pages k.mem.ram r) :
    World L (k.setRam r) sp ∧ Frame i sp k (k.setRam r) := by
  have hw := h.focus hi
  obtain ⟨hp, hs⟩ := hw.pool.writePages hr
  have hf : Frame i sp k (k.setRam r) :=
    ⟨fun _ _ _ => rfl, fun _ _ _ => rfl, fun _ _ _ => rfl, rfl, rfl, rfl, rfl, rfl, hs.right⟩
  refine ⟨?_, hf⟩
  have hu : World L (k.setRam r) (Function.update sp i (some s)) := by
    refine h.update hf (some s) hp ?_
    rintro s' ⟨⟩
    refine ⟨(h.slot i s hi).fields, (h.slot i s hi).inside, ?_⟩
    exact (hw.keep hp hs.left).walk
  rwa [← hi, Function.update_eq_self] at hu

theorem World.setDev (h : World L k sp) (dev : σ) : World L (k.setDev dev) sp :=
  h.same rfl rfl rfl rfl

theorem Frame.setDev (h : Frame i sp k k') (dev : σ) : Frame i sp k (k'.setDev dev) := by
  obtain ⟨h₁, h₂, h₃, h₄, h₅, h₆, h₇, h₈, h₉⟩ := h
  exact ⟨h₁, h₂, h₃, h₄, h₅, h₆, h₇, h₈, h₉⟩

/-- An address of a mapped page resolves into the page. -/
theorem World.resolve (h : World L k sp) {s : Space} (hi : sp i = some s) {virtual p ap : Nat}
    (hm : spaceMap L s (virtual / 4096) = some (pageEntry ap (v2p p / 4096)))
    (hp : p ∈ s.pages) :
    p2v (resolvePhysicalAddress k.mem.ram (k.processVm i) virtual) = p + virtual % 4096 := by
  have hw := h.focus hi
  have hp' : p ∈ s.pages + otherPages i sp := Multiset.mem_add.mpr (.inl hp)
  have hal := hw.pool.page_aligned hp'
  obtain ⟨hlo, hhi⟩ := hw.pool.page_bounds hp'
  rw [hw.resolve hm, pageEntry, v2p_eq hlo (by omega), p2v, u32]
  dsimp only
  omega

theorem spaceMap_frame {s : Space} {page frame : Nat} (h : s.frames[page]? = some frame) :
    spaceMap L s page = some (pageEntry AP_RW_RW (v2p frame / 4096)) ∧ frame ∈ s.pages := by
  refine ⟨?_, ?_⟩
  · simp only [spaceMap, h]
  · simp only [Space.pages, Multiset.mem_cons, Multiset.mem_coe]
    exact .inr (.inr (List.mem_of_getElem? h))

/-- A heap address resolves into its frame. -/
theorem World.resolve_heap (h : World L k sp) {s : Space} (hi : sp i = some s) (virtual : Nat)
    (hv : virtual / 4096 < s.frames.length) :
    ∃ frame, s.frames[virtual / 4096]? = some frame ∧ frame ∈ s.pages ∧
      p2v (resolvePhysicalAddress k.mem.ram (k.processVm i) virtual) =
        frame + virtual % 4096 := by
  have hf := List.getElem?_eq_getElem hv
  obtain ⟨hm, hp⟩ := spaceMap_frame (L := L) hf
  exact ⟨_, hf, hp, h.resolve hi hm hp⟩

/-! ### The budgets suffice -/

theorem card_tables_le {vm : SectionTable} (h : sections vm ⊆ spaceSections) :
    (tables vm).card ≤ 264 := by
  rw [card_tables]
  exact (Finset.card_le_card h).trans card_spaceSections

theorem World.card_otherPages (h : World L k sp) (i : Fin 10) :
    (otherPages i sp).card ≤ 2322 := by
  rw [otherPages, Multiset.card_sum]
  refine (Finset.sum_le_card_nsmul _ _ 258 fun j _ => ?_).trans ?_
  · cases hj : sp j with
    | none => exact Nat.zero_le _
    | some s =>
        have := (h.slot j s hj).fields.frames
        simp only [slotPages, Space.pages, Multiset.card_cons, Multiset.coe_card]
        omega
  · rw [Finset.card_erase_of_mem (Finset.mem_univ i)]
    simp

theorem World.card_otherTables (h : World L k sp) (i : Fin 10) :
    (otherTables i k sp).card ≤ 2640 := by
  have hk := card_tables_le h.kernelInside
  have hs : (∑ j ∈ Finset.univ.erase i, slotTables (k.processVm j) (sp j)).card ≤ 2376 := by
    rw [Multiset.card_sum]
    refine (Finset.sum_le_card_nsmul _ _ 264 fun j _ => ?_).trans ?_
    · cases hj : sp j with
      | none => exact Nat.zero_le _
      | some s => exact card_tables_le (h.slot j s hj).inside
    · rw [Finset.card_erase_of_mem (Finset.mem_univ i)]
      simp
  rw [otherTables, Multiset.card_add]
  omega

end Arunos
