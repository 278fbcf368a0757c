import Arunos.Proc.World

/-!
# Proc — Lifecycle — creating, growing and freeing a process keeps the world

One result for each function of `proc.c` that touches memory: from a world, `procCreate` reaches the
world with a new space in the slot it returns, `procExpandMemory` the world in which that space
has more frames, and `procFree` the world without the slot.  Each frames the other slots.  A fault
can only be a refused allocation (`Small`).
-/

namespace Arunos

variable {σ : Type} {L : Layout} {k k' : Kernel σ} {sp : Fin 10 → Option Space} {i : Fin 10}
  {F : Prop}

theorem wp_setProcess {f : Process → Process} {Q : PUnit → Kernel σ → Prop}
    (h : Q ⟨⟩ (k.setEntry i (f (k.processTable i)))) : wp F (setProcess i f) k Q :=
  wp_modify h

theorem wp_deref {α : Type} {p : Option α} {a : α} {Q : α → Kernel σ → Prop} (hp : p = some a)
    (h : Q a k) : wp F (deref p) k Q := by
  subst hp
  exact wp_pure h

/-! ### `proc_create` -/

theorem firstUnused_some (h : firstUnused k = some i) : (k.processTable i).state = .UNUSED := by
  simpa using List.find?_some h

/-- The slots before the first unused one are in use. -/
theorem firstUnused_before (h : firstUnused k = some i) {j : Fin 10} (hj : j < i) :
    (k.processTable j).state ≠ .UNUSED := by
  obtain ⟨-, n, hn, rfl, hbefore⟩ := List.find?_eq_some_iff_getElem.mp h
  simp only [List.getElem_finRange, Fin.lt_def] at hj
  simpa using hbefore j hj

theorem firstUnused_none (h : firstUnused k = none) (i : Fin 10) :
    (k.processTable i).state ≠ .UNUSED := by
  simpa using List.find?_eq_none.mp h i (List.mem_finRange i)

/-- The fields `proc_create` sets. -/
def createdProcess (p : Process) (i : Fin 10) (kernelStack userStack : Nat) : Process :=
  { p with
    pid := i.val + 1, state := .CREATED, vm := some i, heapSize := 0,
    kernelStack := kernelStack, userStack := userStack, waitPid := -1 }

/-- `proc_create` took slot `i` and gave it the space `s`. -/
structure Created (L : Layout) (sp : Fin 10 → Option Space) (k : Kernel σ) (i : Fin 10) (s : Space)
    (k' : Kernel σ) : Prop where
  unused : firstUnused k = some i
  frames : s.frames = []
  world : World L k' (Function.update sp i (some s))
  frame : Frame i sp k k'
  process : k'.processTable i =
    createdProcess (k.processTable i) i s.kernelStack s.userStack
  kernelStack : Zeroed k'.mem.ram s.kernelStack
  userStack : Zeroed k'.mem.ram s.userStack

/-- The slots not in use are still the ones without a space. -/
theorem Created.unused_of {s : Space} (h : Created L sp k i s k')
    (hu : ∀ j, (k.processTable j).state = .UNUSED → sp j = none) (j : Fin 10)
    (hj : (k'.processTable j).state = .UNUSED) : Function.update sp i (some s) j = none := by
  by_cases hji : j = i
  · subst hji
    rw [h.process] at hj
    cases hj
  · rw [Function.update_of_ne hji]
    by_contra hl
    rw [h.frame.table j hji hl] at hj
    exact hl (hu j hj)

/-- **`proc_create`**: no slot is free and nothing changes, or a free slot gets a new space. -/
theorem wp_procCreate (h : World L k sp)
    (hu : ∀ i, (k.processTable i).state = .UNUSED → sp i = none) :
    wp (Small (bootArena L)) (procCreate L) k fun r k' =>
      (r = none ∧ k' = k ∧ firstUnused k = none) ∨
      ∃ i s, r = some i ∧ Created L sp k i s k' := by
  refine wp_get_bind ?_
  cases hf : firstUnused k with
  | none => exact wp_pure (.inl ⟨rfl, rfl, rfl⟩)
  | some i =>
      have hi := hu i (firstUnused_some hf)
      have hP := h.card_otherPages i
      have hT := h.card_otherTables i
      refine wp_bind (wp_onMem (wp_mono (wp_newSpace (h.focus_none hi) ?_ ?_) ?_))
      · rw [bootArena_pageBudget]
        omega
      · rw [bootArena_tableBudget]
        omega
      · rintro ⟨vm, ks, us⟩ m ⟨hw, hs, hzk, hzu⟩
        refine wp_modify_bind (wp_bind (wp_setProcess (wp_pure (.inr ⟨i, ⟨ks, us, []⟩, rfl, ?_⟩))))
        rw [← Space.pages_nil] at hw
        have hp : Describes (createdProcess (k.processTable i) i ks us) i ⟨ks, us, []⟩ :=
          ⟨rfl, rfl, rfl, rfl, rfl, Nat.zero_le _⟩
        exact ⟨hf, rfl, h.setSlot hw hs hp, frame_setSlot hs, setSlot_processTable, hzk, hzu⟩

/-! ### `proc_expand_memory` -/

/-- The space with more heap frames. -/
def Space.append (s : Space) (frames : List Nat) : Space := { s with frames := s.frames ++ frames }

theorem Space.append_push (s : Space) (frames : List Nat) (frame : Nat) :
    (s.append frames).push frame = s.append (frames ++ [frame]) := by
  simp [append, push]

theorem Space.pages_append (s : Space) (frames : List Nat) :
    (s.append frames).pages = (frames : Multiset Nat) + s.pages := by
  simp only [pages, append, ← Multiset.coe_add, Multiset.add_cons, add_comm]

/-- The space `s` of slot `i` got the zeroed frames `frames`; no byte of a held page changed. -/
structure Grown (L : Layout) (sp : Fin 10 → Option Space) (k : Kernel σ) (i : Fin 10) (s : Space)
    (frames : List Nat) (m : Mem) (vm : SectionTable) : Prop where
  walks : Walks (bootArena L) ((s.append frames).pages + otherPages i sp) (otherTables i k sp)
    spaceSections vm (spaceMap L (s.append frames)) m
  ram : SameOn (held (s.pages + otherPages i sp) (otherTables i k sp)) k.mem.ram m.ram
  zeroed : ∀ frame ∈ frames, Zeroed m.ram frame

theorem Grown.nil (h : World L k sp) {s : Space} (hi : sp i = some s) :
    Grown L sp k i s [] k.mem (k.processVm i) := by
  have hs : s.append [] = s := by simp [Space.append]
  refine ⟨?_, .refl _ _, by simp⟩
  rw [hs]
  exact h.focus hi

/-- One round of the loop. -/
theorem Grown.step {s : Space} {frames : List Nat} {m : Mem} {vm : SectionTable}
    (h : World L k sp) (hg : Grown L sp k i s frames m vm)
    (hlen : s.frames.length + frames.length < 256) :
    wp (Small (bootArena L)) (growSpace vm (4096 * (s.frames.length + frames.length))) m
      fun vm' m' => ∃ frame, Grown L sp k i s (frames ++ [frame]) m' vm' := by
  have hP := h.card_otherPages i
  have hT := h.card_otherTables i
  have hl : (s.append frames).frames.length = s.frames.length + frames.length := by
    simp [Space.append]
  have hcard : ((s.append frames).pages + otherPages i sp).card < (bootArena L).pageBudget := by
    rw [Space.pages_append, Space.pages, bootArena_pageBudget]
    simp only [Multiset.card_add, Multiset.coe_card, Multiset.card_cons]
    omega
  rw [← hl]
  refine wp_mono (wp_growSpace hg.walks (by omega) hcard ?_) ?_
  · rw [bootArena_tableBudget]
    omega
  rintro vm' m' ⟨frame, hw, hs, hz⟩
  rw [← Multiset.cons_add, ← Space.pages_push, Space.append_push] at hw
  refine ⟨frame, hw, hg.ram.trans (hs.mono (held_mono ?_ fun _ ht => ht)), ?_⟩
  · rw [Space.pages_append, add_assoc]
    exact fun c hc => Multiset.mem_add.mpr (.inr hc)
  · intro f hf
    rcases List.mem_append.mp hf with hf | hf
    · have hmem : f ∈ (s.append frames).pages + otherPages i sp := by
        rw [Space.pages_append, add_assoc]
        exact Multiset.mem_add.mpr (.inl hf)
      exact (hg.zeroed f hf).same hs hmem (hg.walks.pool.page_aligned hmem)
    · rw [List.mem_singleton.mp hf]
      exact hz

/-- The kernel after slot `i` grew. -/
def grownKernel (k : Kernel σ) (i : Fin 10) (s : Space) (n : Nat) (m : Mem) (vm : SectionTable) :
    Kernel σ :=
  k.setSlot i m vm { k.processTable i with heapSize := 4096 * (s.frames.length + n) }

theorem grownKernel_processTable {s : Space} {n : Nat} {m : Mem} {vm : SectionTable} :
    (grownKernel k i s n m vm).processTable i =
      { k.processTable i with heapSize := 4096 * (s.frames.length + n) } :=
  setSlot_processTable

theorem Grown.world {s : Space} {frames : List Nat} {m : Mem} {vm : SectionTable}
    (h : World L k sp) (hi : sp i = some s) (hg : Grown L sp k i s frames m vm)
    (hlen : s.frames.length + frames.length ≤ 256) :
    World L (grownKernel k i s frames.length m vm) (Function.update sp i (some (s.append frames))) ∧
      Frame i sp k (grownKernel k i s frames.length m vm) := by
  have hd := (h.slot i s hi).fields
  have hs : SameOn (held (otherPages i sp) (otherTables i k sp)) k.mem.ram m.ram :=
    hg.ram.mono (held_mono (fun _ hp => Multiset.mem_add.mpr (.inr hp)) fun _ ht => ht)
  have hl : (s.append frames).frames.length = s.frames.length + frames.length :=
    List.length_append
  refine ⟨h.setSlot hg.walks hs ?_, frame_setSlot hs⟩
  exact ⟨hd.pid, hd.vm, hd.kernelStack, hd.userStack, congrArg _ hl.symm, hl.trans_le hlen⟩

/-- **`proc_expand_memory`**: the heap grows by `n` zeroed pages. -/
theorem wp_procExpandMemory {s : Space} {n : Nat} (h : World L k sp) (hi : sp i = some s)
    (hn : s.frames.length + n ≤ 256) :
    wp (Small (bootArena L)) (procExpandMemory i n) k fun _ k' =>
      ∃ frames m vm, frames.length = n ∧ Grown L sp k i s frames m vm ∧
        k' = grownKernel k i s n m vm := by
  have hd := (h.slot i s hi).fields
  let I : Nat → Unit → Kernel σ → Prop := fun j _ k' =>
    ∃ frames m vm, frames.length = j ∧ Grown L sp k i s frames m vm ∧ k' = grownKernel k i s j m vm
  have h₀ : I 0 () k := by
    refine ⟨[], k.mem, k.processVm i, rfl, .nil h hi, ?_⟩
    rw [grownKernel, Nat.add_zero, ← hd.heapSize]
    exact (setSlot_self k i).symm
  refine wp_loop I h₀ ?_
  rintro j - k₁ hj ⟨frames, m, vm, rfl, hg, rfl⟩
  refine wp_get_bind (wp_bind (wp_deref (a := i) ?_ (wp_get_bind ?_)))
  · rw [grownKernel, setSlot_processTable]
    exact hd.vm
  rw [grownKernel, setSlot_processTable, setSlot_processVm]
  refine wp_bind (wp_onMem (wp_mono (hg.step h (by omega)) ?_))
  rintro vm' m' ⟨frame, hg'⟩
  have hheap : u32 (4096 * (s.frames.length + frames.length) + 4096) =
      4096 * (s.frames.length + (frames.length + 1)) := by
    rw [u32_of_lt (by omega)]
    omega
  refine wp_modify_bind (wp_setProcess ⟨frames ++ [frame], m', vm', by simp, hg', ?_⟩)
  simp [grownKernel, hheap]

/-! ### `proc_free` -/

/-- `proc_shrink_memory` over the whole heap: the frames go back to the allocator. -/
theorem wp_procShrinkMemory {A : Arena} {P U : Multiset Nat} {s : Space} {n : Nat}
    (hlen : s.frames.length = n) (hn : n ≤ 256) (hvm : (k.processTable i).vm = some i)
    (hheap : (k.processTable i).heapSize = 4096 * n)
    (hw : Walks A ((s.frames : Multiset Nat) + P) U spaceSections (k.processVm i) (spaceMap L s)
      k.mem) :
    wp F (procShrinkMemory i n) k fun _ k' => ∃ m,
      k' = k.setSlot i m (k.processVm i) { k.processTable i with heapSize := 0 } ∧
      Walks A P U spaceSections (k.processVm i) (spaceMap L { s with frames := [] }) m ∧
      SameOn (held P U) k.mem.ram m.ram := by
  induction n generalizing s k with
  | zero =>
      obtain ⟨ks, us, frames⟩ := s
      obtain rfl : frames = [] := List.eq_nil_of_length_eq_zero hlen
      refine wp_pure ⟨k.mem, ?_, ?_, .refl _ _⟩
      · rw [show (0 : Nat) = 4096 * 0 from rfl, ← hheap]
        exact (setSlot_self k i).symm
      · rwa [Multiset.coe_nil, zero_add] at hw
  | succ n ih =>
      obtain ⟨ks, us, frames⟩ := s
      obtain ⟨fs, f, rfl⟩ : ∃ fs f, frames = fs ++ [f] :=
        ⟨frames.dropLast, frames.getLast (by rintro rfl; simp at hlen),
          (List.dropLast_append_getLast _).symm⟩
      have hfs : fs.length = n := by simpa using hlen
      have hpop : Walks A (f ::ₘ ((fs : Multiset Nat) + P)) U spaceSections (k.processVm i)
          (spaceMap L (Space.push ⟨ks, us, fs⟩ f)) k.mem := by
        have e : ((fs ++ [f] : List Nat) : Multiset Nat) + P = f ::ₘ ((fs : Multiset Nat) + P) := by
          rw [← Multiset.coe_add, Multiset.coe_singleton, add_right_comm, add_comm,
            Multiset.singleton_add]
        rwa [e] at hw
      have hstep := wp_shrinkSpace (F := F) hpop (show fs.length < 256 by omega)
      rw [show (Space.mk ks us fs).frames.length = n from hfs] at hstep
      have hdec : u32 (4096 * (n + 1) + 2 ^ 32 - 4096) = 4096 * n := by
        rw [u32]
        omega
      refine wp_get_bind (wp_bind (wp_deref hvm (wp_get_bind ?_)))
      rw [hheap]
      refine wp_bind (wp_onMem (wp_mono hstep ?_))
      rintro - m₁ ⟨hw₁, hs₁⟩
      refine wp_bind (wp_setProcess ?_)
      rw [hdec, setMem_eq k i, setSlot_processTable, setSlot_setEntry]
      have hs₂ : SameOn (held P U) k.mem.ram m₁.ram :=
        hs₁.mono (held_mono (fun _ hp => Multiset.mem_add.mpr (.inr hp)) fun _ ht => ht)
      refine wp_ite (fun h₀ => wp_pure ⟨m₁, ?_, ?_, hs₂⟩) fun _ => ?_
      · rw [h₀]
      · obtain rfl : fs = [] := List.eq_nil_of_length_eq_zero (by omega)
        rwa [Multiset.coe_nil, zero_add] at hw₁
      · refine wp_mono (ih (s := ⟨ks, us, fs⟩) hfs (by omega) ?_ ?_ ?_) ?_
        · rw [setSlot_processTable]
          exact hvm
        · rw [setSlot_processTable]
        · rw [setSlot_processVm]
          exact hw₁
        · rintro - k₂ ⟨m₂, rfl, hw₂, hs₃⟩
          rw [setSlot_processVm] at hw₂ ⊢
          rw [setSlot_processTable, setSlot_setSlot]
          exact ⟨m₂, rfl, hw₂, hs₂.trans hs₃⟩

/-- A held page goes back, and the walk stays. -/
theorem wp_kfree_walks {A : Arena} {P U : Multiset Nat} {S : Finset Nat} {vm : SectionTable}
    {D : Nat → Option PageTableEntry} {m : Mem} {p : Nat} (h : Walks A (p ::ₘ P) U S vm D m) :
    wp F (kfree p) m fun _ m' => Walks A P U S vm D m' ∧ SameOn (held P U) m.ram m'.ram := by
  refine wp_mono (wp_kfree h.pool) ?_
  rintro - m' ⟨hp, hs⟩
  exact ⟨h.keep hp hs.left, hs.right⟩

/-- The fields `proc_free` leaves. -/
def freedProcess (p : Process) : Process := { p with heapSize := 0, state := .UNUSED }

/-- **`proc_free`**: everything the slot held goes back, and the slot is free. -/
theorem wp_procFree {s : Space} (h : World L k sp) (hi : sp i = some s) :
    wp F (procFree i) k fun _ k' => ∃ m,
      k' = k.setSlot i m (k.processVm i) (freedProcess (k.processTable i)) ∧
      World L k' (Function.update sp i none) ∧ Frame i sp k k' := by
  have hd := (h.slot i s hi).fields
  have hw := h.focus hi
  have hheap : (k.processTable i).heapSize / 4096 = s.frames.length := by
    rw [hd.heapSize, Nat.mul_div_cancel_left _ (by decide)]
  simp only [Space.pages, Multiset.cons_add] at hw
  refine wp_get_bind ?_
  dsimp only
  rw [hd.kernelStack, hd.userStack, hheap]
  refine wp_bind (wp_onMem (wp_mono (wp_kfree_walks hw) ?_))
  rintro - m₁ ⟨hw₁, hs₁⟩
  refine wp_bind (wp_onMem (wp_mono (wp_kfree_walks hw₁) ?_))
  rintro - m₂ ⟨hw₂, hs₂⟩
  refine wp_seq (wp_procShrinkMemory rfl hd.frames hd.vm hd.heapSize hw₂) ?_
  rintro - k₃ ⟨m₃, rfl, hw₃, hs₃⟩
  refine wp_bind (wp_deref hd.vm (wp_get_bind ?_))
  rw [setSlot_processVm]
  refine wp_bind (wp_onMem (wp_mono (wp_freeVmPageTables hw₃.pool) ?_))
  rintro - m₄ ⟨hp₄, hs₄⟩
  have hframes : ∀ c ∈ held (otherPages i sp) (otherTables i k sp),
      c ∈ held ((s.frames : Multiset Nat) + otherPages i sp) (otherTables i k sp) :=
    held_mono (fun _ hp => Multiset.mem_add.mpr (.inr hp)) fun _ ht => ht
  have hs : SameOn (held (otherPages i sp) (otherTables i k sp)) k.mem.ram m₄.ram :=
    ((hs₁.tailPage.mono hframes).trans (hs₂.mono hframes)).trans (hs₃.trans hs₄)
  refine wp_setProcess ⟨m₄, ?_⟩
  have hk : ∀ k' : Kernel σ, k' = k.setSlot i m₄ (k.processVm i) (freedProcess (k.processTable i)) →
      k' = k.setSlot i m₄ (k.processVm i) (freedProcess (k.processTable i)) ∧
      World L k' (Function.update sp i none) ∧ Frame i sp k k' := by
    rintro _ rfl
    refine ⟨rfl, h.update (frame_setSlot hs) none ?_ ?_, frame_setSlot hs⟩
    · rw [slotPages, slotTables, zero_add, zero_add]
      exact hp₄
    · rintro s ⟨⟩
  refine hk _ ?_
  simp [freedProcess, Kernel.setSlot, Kernel.setVm, Kernel.setEntry, Kernel.setMem]

end Arunos
