import Arunos.Proc.Copy
import Arunos.Proc.Syscall

/-!
# Proc — Fork — what the child of `fork` is

The child's memory is filled byte by byte: the source address goes through the tables of the running
process, `ttb`, and the target address through `resolve_physical_address` on the child's new
tables.  Both are heaps of a world, so each round is a store of one byte of one heap into the
other (`wp_copyMemory`), and no page of the parent is one of the child's.

`Forked` is the result: a new slot with the parent's bytes and context, and the rest framed.
-/

namespace Arunos

variable {σ : Type} {L : Layout} {k k' : Kernel σ} {sp : Fin 10 → Option Space} {i c : Fin 10}
  {F : Prop} {s s' : Space}

/-! ### The heap -/

/-- A load from the heap of the running process. -/
theorem World.loadByte (h : World L k sp) (ht : k.ttb = some c) (hs : sp c = some s)
    {virtual : Nat} (hv : virtual < 4096 * s.frames.length) :
    loadByte k virtual = some (heapBytes s.frames k.mem.ram virtual) := by
  have hslot := h.slot c s hs
  have hactive : activeVm k = k.processVm c := by rw [activeVm, ht]
  obtain ⟨hm, -⟩ := spaceMap_frame (L := L)
    (List.getElem?_eq_getElem (show virtual / 4096 < s.frames.length by omega))
  have hwalk := (congrFun hslot.walk (virtual / 4096)).trans hm
  rw [← h.byteAt_heap hs hv, byteAt, hslot.vmOf, (resolvePhysicalAddress_eq hwalk).1,
    Arunos.loadByte, hactive, hwalk]
  rfl

/-- The child's heap is filled from the parent's. -/
theorem wp_copyMemory {heapSize : Nat} (h : World L k sp) (ht : k.ttb = some c) (hci : c ≠ i)
    (hs : sp c = some s) (hi : sp i = some s') (hlen : s'.frames.length = s.frames.length)
    (hheap : heapSize = 4096 * s.frames.length) :
    wp F (copyMemory i heapSize) k fun _ k' =>
      WroteIn (s'.frames : Multiset Nat) k k' ∧
      ∀ a < heapSize, heapBytes s'.frames k'.mem.ram a = heapBytes s.frames k.mem.ram a := by
  unfold copyMemory
  -- after `v` rounds the two heaps agree below `v`
  refine wp_loop (fun v _ k' => WroteIn (s'.frames : Multiset Nat) k k' ∧
    ∀ a < v, heapBytes s'.frames k'.mem.ram a = heapBytes s.frames k.mem.ram a)
    ⟨.refl _ k, nofun⟩ ?_
  rintro v - k₁ hv ⟨hw, hsame⟩
  obtain ⟨h₁, hf₁⟩ := h.wroteHeap hi hw
  have hparent : heapBytes s.frames k₁.mem.ram v = heapBytes s.frames k.mem.ram v :=
    heapBytes_congr (fun p hp x => hf₁.page h hci hs (s.frames_sub p hp)) (by omega)
  refine wp_get_bind (wp_bind (wp_deref (h₁.slot i s' hi).fields.vm (wp_get_bind ?_)))
  obtain ⟨frame, hf, -, hdst⟩ := h₁.resolve_heap hi v (by omega)
  have hmem : frame ∈ (s'.frames : Multiset Nat) := List.mem_of_getElem? hf
  dsimp only
  rw [hdst]
  refine wp_bind (wp_deref (h₁.loadByte (hf₁.ttb.trans ht) hs (by omega)) ?_)
  refine wp_onMem (wp_modify ⟨hw.trans ⟨_, k₁.dev, ?_, rfl⟩, fun a ha => ?_⟩)
  · refine .of_range (n := 1) hmem (Nat.le_add_right _ (v % 4096)) (by omega) fun a ha => ?_
    exact Function.update_of_ne (by omega) _ _
  · have hstore := (h₁.apart hi).heapBytes_store hf (show v % 4096 + 1 ≤ 4096 by omega)
      k₁.mem.ram fun _ => heapBytes s.frames k₁.mem.ram v
    rw [← update_eq_storeBytes] at hstore
    refine (congrFun hstore a).trans ?_
    by_cases hav : a = v
    · rw [hav, storeBytes, if_pos (by omega), hparent]
    · rw [storeBytes_other (by omega), hsame a (by omega)]

/-! ### The stacks -/

/-- The copy of a stack page. -/
theorem wp_copyStack {target source : Nat} (hal : target % 4096 = 0) (hal' : source % 4096 = 0)
    (hne : target ≠ source) :
    wp F (onMem (onRam (memcpyWithin · target source 4096))) k fun _ k' =>
      WroteIn {target} k k' ∧
      ∀ x < 4096, k'.mem.ram (target + x) = k.mem.ram (source + x) := by
  have hcopy : ∀ a, memcpyWithin k.mem.ram target source 4096 a =
      if target ≤ a ∧ a < target + 4096 then k.mem.ram (source + (a - target))
      else k.mem.ram a := memcpyWithin_apply _ (by omega)
  refine wp_onMem (wp_modify ⟨⟨_, k.dev, ?_, rfl⟩, fun x hx => ?_⟩)
  · refine .of_range (Multiset.mem_singleton_self _) le_rfl le_rfl fun a ha => ?_
    exact (hcopy a).trans (if_neg (by omega))
  · refine (hcopy _).trans ?_
    rw [if_pos (by omega), Nat.add_sub_cancel_left]

/-! ### `fork` -/

/-- The parent's context with the result 0. -/
def childContext (context : Context) : Context := Function.update context .R0 0

/-- The process in slot `c`, with the space `s`, has a child in slot `i`, with the space `s'`. -/
structure Forked (L : Layout) (sp : Fin 10 → Option Space) (k : Kernel σ) (c i : Fin 10)
    (s s' : Space) (k' : Kernel σ) : Prop where
  unused : firstUnused k = some i
  world : World L k' (Function.update sp i (some s'))
  frame : Frame i sp k k'
  state : (k'.processTable i).state = .READY
  waitPid : (k'.processTable i).waitPid = -1
  context : (k'.processTable i).context = childContext (k.processTable c).context
  frames : s'.frames.length = s.frames.length
  heap : ∀ a < 4096 * s.frames.length,
    heapBytes s'.frames k'.mem.ram a = heapBytes s.frames k.mem.ram a
  userStack : ∀ x < 4096, k'.mem.ram (s'.userStack + x) = k.mem.ram (s.userStack + x)

/-- The two copies of stacks reach neither heap; the second copies the user stack. -/
theorem wp_copyStacks (h : World L k sp) (hci : c ≠ i) (hs : sp c = some s) (hi : sp i = some s') :
    wp F (do
      onMem (onRam (memcpyWithin · s'.kernelStack s.kernelStack 4096))
      onMem (onRam (memcpyWithin · s'.userStack s.userStack 4096))) k fun _ k' =>
      WroteIn {s'.kernelStack, s'.userStack} k k' ∧
      ∀ x < 4096, k'.mem.ram (s'.userStack + x) = k.mem.ram (s.userStack + x) := by
  have hmem : ∀ t : Space, t.kernelStack ∈ t.pages ∧ t.userStack ∈ t.pages := fun t =>
    ⟨Multiset.mem_cons_self _ _, Multiset.mem_cons_of_mem (Multiset.mem_cons_self _ _)⟩
  have hal : ∀ t ∈ s'.pages, t % 4096 = 0 := fun t ht => (h.page_aligned hi ht).1
  have hal' : ∀ t ∈ s.pages, t % 4096 = 0 := fun t ht => (h.page_aligned hs ht).1
  have hne : ∀ p ∈ s'.pages, ∀ q ∈ s.pages, p ≠ q := fun p hp q hq =>
    (h.page_ne hci (mem_slotPages hi hp) (mem_slotPages hs hq)).symm
  refine wp_seq (wp_copyStack (hal _ (hmem s').1) (hal' _ (hmem s).1)
    (hne _ (hmem s').1 _ (hmem s).1)) ?_
  rintro - k₁ ⟨hw₁, -⟩
  refine wp_mono (wp_copyStack (hal _ (hmem s').2) (hal' _ (hmem s).2)
    (hne _ (hmem s').2 _ (hmem s).2)) ?_
  rintro - k' ⟨hw, hcopy⟩
  refine ⟨(hw₁.mono (by simp)).trans (hw.mono (by simp)), fun x hx => (hcopy x hx).trans ?_⟩
  -- the parent's user stack is not the page written first
  refine hw₁.ram.page ?_ (hal' _ (hmem s).2) ?_ (by omega) (by omega)
  · rintro q hq
    rw [Multiset.mem_singleton.mp hq]
    exact hal _ (hmem s').1
  · rw [Multiset.mem_singleton]
    exact (hne _ (hmem s').1 _ (hmem s).2).symm

/-- **`fork`** returns -1 and does nothing when no slot is free; otherwise it makes a child in the
first free slot. -/
theorem wp_fork (h : World L k sp) (hu : ∀ i, (k.processTable i).state = .UNUSED → sp i = none)
    (hc : k.currentProcess = some c) (ht : k.ttb = some c) (hs : sp c = some s) :
    wp (Small (bootArena L)) (syscallFork L) k fun out k' =>
      (firstUnused k = none ∧ out = .ret (-1) ∧ k' = k) ∨
      ∃ i s', out = .ret (i.val + 1) ∧ Forked L sp k c i s s' k' := by
  have hd := (h.slot c s hs).fields
  refine wp_get_bind (wp_bind (wp_deref hc ?_))
  refine wp_seq (wp_procCreate h hu) ?_
  rintro child k₁ (⟨rfl, rfl, hfull⟩ | ⟨i, s₁, rfl, hcr⟩)
  · exact wp_pure (.inl ⟨hfull, rfl, rfl⟩)
  refine wp_mono (Q := fun out k' => ∃ s', out = .ret (i.val + 1) ∧ Forked L sp k c i s s' k') ?_
    fun _ _ ⟨s', h'⟩ => .inr ⟨i, s', h'⟩
  have hlive := live_of_space hs
  have hne : c ≠ i := slot_ne hlive (hu i (firstUnused_some hcr.unused))
  have hheap : (k₁.processTable c).heapSize = 4096 * s.frames.length := by
    rw [hcr.frame.table c hne hlive, hd.heapSize]
  have hn : (k₁.processTable c).heapSize / 4096 = s.frames.length := by
    rw [hheap, Nat.mul_div_cancel_left _ (by decide)]
  have hlen : s₁.frames.length + s.frames.length ≤ 256 := by
    rw [hcr.frames, List.length_nil, Nat.zero_add]
    exact hd.frames
  refine wp_get_bind ?_
  dsimp only
  rw [hn]
  refine wp_seq (wp_procExpandMemory hcr.world (Function.update_self _ _ _) hlen) ?_
  rintro - k₂ ⟨frames, m, vm, hframes, hg, rfl⟩
  rw [← hframes] at hlen ⊢
  obtain ⟨h₂, hf₂⟩ := hg.world hcr.world (Function.update_self _ _ _) hlen
  have hwait : ((grownKernel k₁ i s₁ frames.length m vm).processTable i).waitPid = -1 := by
    rw [grownKernel_processTable, hcr.process]
    rfl
  rw [Function.update_idem] at h₂
  have hF₂ : Frame i sp k _ := hcr.frame.trans hf₂.update
  have hlen₂ : (s₁.append frames).frames.length = s.frames.length := by
    rw [Space.append, hcr.frames, List.nil_append, hframes]
  generalize s₁.append frames = s' at h₂ hlen₂
  generalize grownKernel k₁ i s₁ frames.length m vm = k₂ at h₂ hF₂ hwait
  have hi₂ : Function.update sp i (some s') i = some s' := Function.update_self _ _ _
  have hs₂ : Function.update sp i (some s') c = some s := by rw [Function.update_of_ne hne, hs]
  refine wp_seq (wp_copyMemory h₂ (hF₂.ttb.trans ht) hne hs₂ hi₂ hlen₂ hheap) ?_
  rintro - k₃ ⟨hw₃, hcopy⟩
  obtain ⟨h₃, hf₃⟩ := h₂.wroteHeap hi₂ hw₃
  have hF₃ := hF₂.trans hf₃.update
  have hd₃ := (h₃.slot i s' hi₂).fields
  have hp₃ := (h₃.slot c s hs₂).fields
  refine wp_get_bind (wp_get_bind ?_)
  rw [hd₃.kernelStack, hd₃.userStack, hp₃.kernelStack, hp₃.userStack, ← bind_assoc]
  refine wp_seq (wp_copyStacks h₃ hne hs₂ hi₂) ?_
  rintro - k₄ ⟨hw₄, hstack⟩
  obtain ⟨h₄, hf₄⟩ := h₃.wrote hi₂ (hw₄.mono s'.stack_sub)
  have hF₄ := hF₃.trans hf₄.update
  obtain ⟨h₅, hf₅⟩ := h₄.setEntry (i := i) (p := { k₄.processTable i with
    context := Function.update (k₃.processTable c).context .R0 0, state := .READY })
    fun t ht => (h₄.slot i t ht).fields.congr rfl
  refine wp_bind (wp_setProcess (wp_get_bind (wp_pure ⟨s', ?_, hcr.unused, h₅,
    hF₄.trans hf₅.update, ?_, ?_, ?_, hlen₂, fun a ha => ?_, fun x hx => ?_⟩)))
  · rw [setEntry_processTable]
    exact congrArg _ (h₄.slot i s' hi₂).fields.pid
  · rw [setEntry_processTable]
  · rw [setEntry_processTable]
    show (k₄.processTable i).waitPid = -1
    rw [hw₄.processTable, hw₃.processTable, hwait]
  · rw [setEntry_processTable, ← hF₃.table c hne hlive]
    rfl
  · -- the stacks are written after the heap
    have hkeep : heapBytes s'.frames k₄.mem.ram a = heapBytes s'.frames k₃.mem.ram a := by
      obtain ⟨hks, hus⟩ := h₃.stack_notMem hi₂
      refine heapBytes_congr (fun p hp x hx => ?_) (by omega)
      refine hw₄.ram.page ?_ ((h₃.apart hi₂).aligned p hp) ?_ (by omega) (by omega)
      · exact fun q hq => (h₃.page_aligned hi₂ (s'.stack_sub q hq)).1
      · intro hq
        rcases Multiset.mem_cons.mp hq with rfl | hq
        · exact hks hp
        · exact hus (Multiset.mem_singleton.mp hq ▸ hp)
    refine hkeep.trans ((hcopy a (by omega)).trans ?_)
    exact heapBytes_congr (fun p hp x => hF₂.page h hne hs (s.frames_sub p hp)) ha
  · refine (hstack x hx).trans (hF₃.page h hne hs ?_ hx)
    exact Multiset.mem_cons_of_mem (Multiset.mem_cons_self _ _)

end Arunos
