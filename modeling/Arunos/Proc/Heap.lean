import Arunos.Proc.World

/-!
# Proc — Heap — the memory of one process, through its page tables

`byteAt k i a` is the byte at the address `a` of a process, found as `resolve_physical_address`
finds it.  In a world it is a byte of one of the process's pages: of a heap frame below `heap_size`
(`World.byteAt_heap`), and of a stack at the stack's page.

The frames of a heap are anywhere in memory and do not overlap (`Apart`), so the heap can be taken
for one run of bytes, `heapBytes`, and a store into a part of one frame is a store into it
(`Apart.heapBytes_store`).
-/

namespace Arunos

variable {σ : Type} {L : Layout} {k k' : Kernel σ} {sp : Fin 10 → Option Space} {i : Fin 10}
  {s : Space}

/-! ### The kernel's view -/

/-- The section table a process's `vm` points to. -/
def vmOf (k : Kernel σ) (i : Fin 10) : SectionTable :=
  match (k.processTable i).vm with
  | some v => k.processVm v
  | none => .zero

/-- The frames that a process's page tables map at the pages of its heap. -/
def heapFrames (k : Kernel σ) (i : Fin 10) : List Nat :=
  (List.range ((k.processTable i).heapSize / 4096)).map fun page =>
    p2v (resolvePhysicalAddress k.mem.ram (vmOf k i) (page * 4096))

/-- The pages of a process: both stacks and the heap. -/
def processPages (k : Kernel σ) (i : Fin 10) : List Nat :=
  (k.processTable i).kernelStack :: (k.processTable i).userStack :: heapFrames k i

/-- A byte of the address space of a process, found as `resolve_physical_address` finds it. -/
def byteAt (k : Kernel σ) (i : Fin 10) (virtual : Nat) : UInt8 :=
  k.mem.ram (p2v (resolvePhysicalAddress k.mem.ram (vmOf k i) virtual))

theorem SlotOk.vmOf (h : SlotOk L k i s) : vmOf k i = k.processVm i := by
  rw [Arunos.vmOf, h.fields.vm]

theorem World.heapFrames (h : World L k sp) (hi : sp i = some s) :
    heapFrames k i = s.frames := by
  have hd := (h.slot i s hi).fields
  have hn : (k.processTable i).heapSize / 4096 = s.frames.length := by
    rw [hd.heapSize, Nat.mul_div_cancel_left _ (by decide)]
  refine List.ext_getElem ?_ fun n h₁ h₂ => ?_
  · rw [Arunos.heapFrames, List.length_map, List.length_range, hn]
  · have hpage : n * 4096 / 4096 = n := Nat.mul_div_cancel _ (by decide)
    obtain ⟨frame, hf, -, hr⟩ := h.resolve_heap hi (n * 4096) (by rw [hpage]; exact h₂)
    rw [hpage, List.getElem?_eq_getElem h₂] at hf
    simp only [Arunos.heapFrames, List.getElem_map, List.getElem_range]
    rw [(h.slot i s hi).vmOf, hr, ← Option.some.inj hf, Nat.mul_mod_left, Nat.add_zero]

theorem World.processPages (h : World L k sp) (hi : sp i = some s) :
    (processPages k i : Multiset Nat) = s.pages := by
  have hd := (h.slot i s hi).fields
  rw [Arunos.processPages, h.heapFrames hi, hd.kernelStack, hd.userStack]
  rfl

/-- A byte of a mapped page. -/
theorem World.byteAt_page (h : World L k sp) (hi : sp i = some s) {virtual ap page : Nat}
    (hm : spaceMap L s (virtual / 4096) = some (pageEntry ap (v2p page / 4096)))
    (hp : page ∈ s.pages) : byteAt k i virtual = k.mem.ram (page + virtual % 4096) := by
  rw [byteAt, (h.slot i s hi).vmOf, h.resolve hi hm hp]

/-- The stacks lie above the heap. -/
theorem spaceMap_stacks (L : Layout) (h : s.frames.length ≤ 256) :
    spaceMap L s 0x7fffd = some (pageEntry AP_RW_RW (v2p s.userStack / 4096)) ∧
      spaceMap L s 0x7fffe = some (pageEntry AP_RW_R (v2p s.kernelStack / 4096)) := by
  have h₁ : s.frames[0x7fffd]? = none := List.getElem?_eq_none (by omega)
  have h₂ : s.frames[0x7fffe]? = none := List.getElem?_eq_none (by omega)
  constructor
  · simp only [spaceMap, h₁, if_true]
  · simp only [spaceMap, h₂]
    rw [if_neg (by decide), if_pos trivial]

theorem World.byteAt_userStack (h : World L k sp) (hi : sp i = some s) {x : Nat} (hx : x < 4096) :
    byteAt k i (0x7fffd000 + x) = k.mem.ram (s.userStack + x) := by
  have hm := (spaceMap_stacks L (h.slot i s hi).fields.frames).1
  have hpage : (0x7fffd000 + x) / 4096 = 0x7fffd := by omega
  rw [← hpage] at hm
  rw [h.byteAt_page hi hm (by simp [Space.pages]), show (0x7fffd000 + x) % 4096 = x by omega]

theorem World.byteAt_kernelStack (h : World L k sp) (hi : sp i = some s) {x : Nat} (hx : x < 4096) :
    byteAt k i (0x7fffe000 + x) = k.mem.ram (s.kernelStack + x) := by
  have hm := (spaceMap_stacks L (h.slot i s hi).fields.frames).2
  have hpage : (0x7fffe000 + x) / 4096 = 0x7fffe := by omega
  rw [← hpage] at hm
  rw [h.byteAt_page hi hm (by simp [Space.pages]), show (0x7fffe000 + x) % 4096 = x by omega]

/-! ### The heap as one run of bytes -/

/-- The bytes of a heap with the frames `frames`. -/
def heapBytes (frames : List Nat) (r : Bytes) : Bytes := fun a =>
  r (frames.getD (a / 4096) 0 + a % 4096)

theorem heapBytes_of_frame {frames : List Nat} {a frame : Nat} (r : Bytes)
    (h : frames[a / 4096]? = some frame) : heapBytes frames r a = r (frame + a % 4096) := by
  rw [heapBytes, List.getD_eq_getElem?_getD, h, Option.getD_some]

theorem heapBytes_congr {frames : List Nat} {r r' : Bytes} {a : Nat}
    (h : ∀ p ∈ frames, ∀ x < 4096, r' (p + x) = r (p + x)) (ha : a < 4096 * frames.length) :
    heapBytes frames r' a = heapBytes frames r a := by
  have hf := List.getElem?_eq_getElem (show a / 4096 < frames.length by omega)
  rw [heapBytes_of_frame _ hf, heapBytes_of_frame _ hf]
  exact h _ (List.mem_of_getElem? hf) _ (by omega)

theorem World.byteAt_heap (h : World L k sp) (hi : sp i = some s) {a : Nat}
    (ha : a < 4096 * s.frames.length) : byteAt k i a = heapBytes s.frames k.mem.ram a := by
  have hf := List.getElem?_eq_getElem (show a / 4096 < s.frames.length by omega)
  obtain ⟨hm, hp⟩ := spaceMap_frame (L := L) hf
  rw [h.byteAt_page hi hm hp, heapBytes_of_frame _ hf]

/-- Pages that do not overlap, none of them the null page. -/
structure Apart (pages : List Nat) : Prop where
  nodup : pages.Nodup
  aligned : ∀ p ∈ pages, p % 4096 = 0
  pos : ∀ p ∈ pages, 0 < p

/-- **A store into a part of a frame is a store into the heap.** -/
theorem Apart.heapBytes_store {frames : List Nat} (h : Apart frames) {v n frame : Nat}
    (hf : frames[v / 4096]? = some frame) (hn : v % 4096 + n ≤ 4096) (r b : Bytes) :
    heapBytes frames (storeBytes r (frame + v % 4096) n b) =
      storeBytes (heapBytes frames r) v n b := by
  funext a
  have hframe := List.mem_of_getElem? hf
  have hal := h.aligned frame hframe
  by_cases hpage : a / 4096 = v / 4096
  · have hfa : frames[a / 4096]? = some frame := by rw [hpage, hf]
    rw [heapBytes_of_frame _ hfa, storeBytes, storeBytes, heapBytes_of_frame _ hfa]
    by_cases hin : v ≤ a ∧ a < v + n
    · rw [if_pos (by omega), if_pos hin]
      exact congrArg b (by omega)
    · rw [if_neg (by omega), if_neg hin]
  · rw [storeBytes_other (show a < v ∨ v + n ≤ a by omega)]
    refine storeBytes_other ?_
    -- another frame, or no frame at all
    cases hfa : frames[a / 4096]? with
    | none =>
        have := h.pos frame hframe
        rw [List.getD_eq_getElem?_getD, hfa, Option.getD_none]
        omega
    | some f =>
        have hal' := h.aligned f (List.mem_of_getElem? hfa)
        have hne : f ≠ frame := by
          rintro rfl
          obtain ⟨h₁, -⟩ := List.getElem?_eq_some_iff.mp hfa
          exact hpage ((List.getElem?_inj h₁ h.nodup).mp (hfa.trans hf.symm))
        rw [List.getD_eq_getElem?_getD, hfa, Option.getD_some]
        omega

/-- Held pages are different pages. -/
theorem Pool.pages_nodup {A : Arena} {m : Mem} {P T : Multiset Nat} (h : Pool A m P T) :
    P.Nodup := by
  have hsplit : P.bind pageChunks =
      P + P.bind fun p => ({p + 1024, p + 2048, p + 3072} : Multiset Nat) := by
    have : pageChunks = fun p => ({p} : Multiset Nat) + {p + 1024, p + 2048, p + 3072} := rfl
    rw [this, Multiset.bind_add, Multiset.bind_singleton, Multiset.map_id']
  have hnodup := (Multiset.nodup_add.mp h.held_nodup).1
  rw [hsplit] at hnodup
  exact (Multiset.nodup_add.mp hnodup).1

theorem World.pages_nodup (h : World L k sp) (hi : sp i = some s) :
    (s.pages + otherPages i sp).Nodup := (h.focus hi).pool.pages_nodup

theorem mem_slotPages {p : Nat} (hi : sp i = some s) (hp : p ∈ s.pages) :
    p ∈ slotPages (sp i) := by
  rw [hi]
  exact hp

/-- Pages of different slots are different. -/
theorem World.page_ne (h : World L k sp) {j : Fin 10} (hne : j ≠ i) {p q : Nat}
    (hp : p ∈ slotPages (sp i)) (hq : q ∈ slotPages (sp j)) : q ≠ p := by
  rintro rfl
  have hnodup := h.pool.pages_nodup
  rw [allPages_eq i] at hnodup
  exact Multiset.disjoint_left.mp (Multiset.nodup_add.mp hnodup).2.2 hp
    (mem_otherPages.mpr ⟨j, hne, hq⟩)

/-- The stacks are not in the heap. -/
theorem World.stack_notMem (h : World L k sp) (hi : sp i = some s) :
    s.kernelStack ∉ s.frames ∧ s.userStack ∉ s.frames := by
  have hnodup := (Multiset.nodup_add.mp (h.pages_nodup hi)).1
  simp only [Space.pages, Multiset.nodup_cons, Multiset.mem_cons, not_or] at hnodup
  exact ⟨hnodup.1.2, hnodup.2.1⟩

theorem World.page_aligned (h : World L k sp) (hi : sp i = some s) {p : Nat} (hp : p ∈ s.pages) :
    p % 4096 = 0 ∧ 0x80000000 ≤ p := by
  have hmem : p ∈ s.pages + otherPages i sp := Multiset.mem_add.mpr (.inl hp)
  exact ⟨(h.focus hi).pool.page_aligned hmem, ((h.focus hi).pool.page_bounds hmem).1⟩

/-- What works in slot `i` keeps the pages of the other slots. -/
theorem Frame.page (hf : Frame i sp k k') (h : World L k sp) {j : Fin 10} (hj : j ≠ i)
    (hs : sp j = some s) {p : Nat} (hp : p ∈ s.pages) {x : Nat} (hx : x < 4096) :
    k'.mem.ram (p + x) = k.mem.ram (p + x) := by
  have hmem : p ∈ otherPages i sp := mem_otherPages.mpr ⟨j, hj, mem_slotPages hs hp⟩
  exact hf.ram.page hmem (h.page_aligned hs hp).1 (by omega) (by omega)

theorem World.apart (h : World L k sp) (hi : sp i = some s) : Apart s.frames := by
  have hmem : ∀ p ∈ s.frames, p ∈ s.pages := fun p hp => by simp [Space.pages, hp]
  refine ⟨?_, fun p hp => (h.page_aligned hi (hmem p hp)).1, fun p hp => ?_⟩
  · have := (Multiset.nodup_add.mp (h.pages_nodup hi)).1
    rw [Space.pages, Multiset.nodup_cons, Multiset.nodup_cons] at this
    exact this.2.2
  · have := (h.page_aligned hi (hmem p hp)).2
    omega

end Arunos
