import Arunos.Memory.Paging

/-!
# Memory — Space — the address space of a process

A process sees its heap frames from address 0 up, its two stacks below `KERNEL_BASE`, and the
kernel's mappings above it.  `Space` is that content and `spaceMap L s` the walk it stands for.

`newSpace`, `growSpace` and `shrinkSpace` are the parts of `proc_create`, `proc_expand_memory` and
`proc_shrink_memory` that work on memory.  Each takes a table whose walk is the map of a space to
one whose walk is the map of the next space.  All sections in use are among `spaceSections`, 264
of them, which bounds the page tables of a process.
-/

namespace Arunos

/-! ### The kernel's part -/

/-- The sections that can be in use: the first megabyte, the stacks and the kernel's mappings. -/
def spaceSections : Finset Nat :=
  {0, 2047, 3328, 4095} ∪ Finset.Ico 2048 2304 ∪ Finset.Ico 3072 3076

theorem card_spaceSections : spaceSections.card ≤ 264 := by
  have h₁ : ({0, 2047, 3328, 4095} : Finset Nat).card = 4 := rfl
  have h₂ := Finset.card_union_le {0, 2047, 3328, 4095} (Finset.Ico 2048 2304)
  have h₃ := Finset.card_union_le ({0, 2047, 3328, 4095} ∪ Finset.Ico 2048 2304)
    (Finset.Ico 3072 3076)
  rw [Nat.card_Ico] at h₂ h₃
  unfold spaceSections
  omega

theorem mem_spaceSections {j : Nat} :
    j ∈ spaceSections ↔ (j = 0 ∨ j = 2047 ∨ j = 3328 ∨ j = 4095) ∨ (2048 ≤ j ∧ j < 2304) ∨
      (3072 ≤ j ∧ j < 3076) := by
  simp [spaceSections, or_assoc]

theorem spaceSections_sub : spaceSections ⊆ Finset.range 4096 := by
  intro j hj
  rw [mem_spaceSections] at hj
  exact Finset.mem_range.mpr (by omega)

/-- The walk of a table that holds the kernel's mappings alone. -/
def kernelMap (L : Layout) : Nat → Option PageTableEntry :=
  (kernelMappings L).foldl (fun D mapping => mapping.extend D) fun _ => none

/-- What a list of mappings maps, one of them maps. -/
theorem foldl_extend_some {mappings : List MemoryMapping} {D : Nat → Option PageTableEntry}
    {page : Nat} {e : PageTableEntry}
    (h : mappings.foldl (fun D mapping => mapping.extend D) D page = some e) :
    D page = some e ∨ ∃ mapping ∈ mappings, mapping.virtualAddress / 4096 ≤ page ∧
      page < mapping.virtualAddress / 4096 + mapping.count ∧
      e = pageEntry mapping.accessPermissions
        (mapping.physicalStart / 4096 + (page - mapping.virtualAddress / 4096)) := by
  induction mappings generalizing D with
  | nil => exact .inl h
  | cons mapping mappings ih =>
      rcases ih h with h | ⟨mp, hmp, hcov⟩
      · simp only [MemoryMapping.extend, mapped] at h
        split at h
        next hc =>
          exact .inr ⟨mapping, List.mem_cons_self, hc.1, hc.2, (Option.some.inj h).symm⟩
        next => exact .inl h
      · exact .inr ⟨mp, List.mem_cons_of_mem _ hmp, hcov⟩

theorem forall_kernelMappings {L : Layout} {Q : MemoryMapping → Prop}
    (h₁ : Q ⟨0x80000000, 0, v2p L.kernelEnd, AP_RW_D⟩)
    (h₂ : Q ⟨0xC0000000, 0x10000000, 0x10400000, AP_RW_D⟩)
    (h₃ : Q ⟨0xd0000000, 0x42000000, 0x42010000, AP_RW_D⟩)
    (h₄ : Q ⟨0xd0010000, 0x43001000, 0x43002000, AP_RW_D⟩)
    (h₅ : Q ⟨0xffff0000, 0, 0x1000, AP_RW_D⟩)
    (h₆ : Q ⟨L.allocatableStart, v2p L.allocatableStart, 0x10000000, AP_RW_D⟩) :
    ∀ mapping ∈ kernelMappings L, Q mapping := by
  intro mapping hm
  simp only [kernelMappings, List.mem_cons, List.not_mem_nil, or_false] at hm
  rcases hm with rfl | rfl | rfl | rfl | rfl | rfl <;> assumption

/-- **The kernel's mappings are kernel mappings**: above `KERNEL_BASE` and closed to the user. -/
theorem kernelMap_some {L : Layout} {page : Nat} {e : PageTableEntry}
    (h : kernelMap L page = some e) : 0x80000 ≤ page ∧ e.accessPermissions = AP_RW_D := by
  rcases foldl_extend_some h with h | ⟨mapping, hm, hlo, -, rfl⟩
  · cases h
  · have hlow : ∀ mapping ∈ kernelMappings L,
        0x80000 ≤ mapping.virtualAddress / 4096 ∧ mapping.accessPermissions = AP_RW_D := by
      refine forall_kernelMappings ?_ ?_ ?_ ?_ ?_ ?_
      all_goals refine ⟨?_, rfl⟩
      all_goals have := L.base_le
      all_goals simp only [Layout.allocatableStart]
      all_goals omega
    obtain ⟨h₁, h₂⟩ := hlow mapping hm
    exact ⟨h₁.trans hlo, h₂⟩

theorem kernelMap_user {L : Layout} {page : Nat} (h : page < 0x80000) :
    kernelMap L page = none := by
  cases hk : kernelMap L page with
  | none => rfl
  | some e =>
      have := (kernelMap_some hk).1
      omega

/-- A mapping whose pages lie in the sections from `lo` to `hi`. -/
theorem fits_space {v p e ap : Nat} (lo hi : Nat) (hsub : ∀ j, lo ≤ j → j < hi → j ∈ spaceSections)
    (hp : p / 4096 ≤ (e + 4095) / 4096) (he : e + 4095 < 2 ^ 32) (hap : ap < 2 ^ 8)
    (hlo : lo * 256 ≤ v / 4096) (hhi : v / 4096 + ((e + 4095) / 4096 - p / 4096) ≤ hi * 256)
    (htop : hi ≤ 4096) : (MemoryMapping.mk v p e ap).Fits spaceSections := by
  refine ⟨hp, he, ?_, hap, ?_⟩
  · simp only [MemoryMapping.count]
    omega
  · intro i hi'
    simp only [MemoryMapping.count] at hi' ⊢
    exact hsub _ (by omega) (by omega)

theorem kernelMappings_fit (L : Layout) :
    ∀ mapping ∈ kernelMappings L, mapping.Fits spaceSections := by
  have h₁ := L.base_le
  have h₂ := L.fits
  have hap : AP_RW_D < 2 ^ 8 := by decide
  have hs : ∀ j, (j = 3328 ∨ j = 4095) ∨ (2048 ≤ j ∧ j < 2304) ∨ (3072 ≤ j ∧ j < 3076) →
      j ∈ spaceSections := fun j hj => mem_spaceSections.mpr (by omega)
  refine forall_kernelMappings ?_ ?_ ?_ ?_ ?_ ?_
  · rw [v2p_eq h₁ (by omega)]
    exact fits_space 2048 2304 (fun j _ _ => hs j (by omega)) (by omega) (by omega) hap
      (by omega) (by omega) (by omega)
  · exact fits_space 3072 3076 (fun j _ _ => hs j (by omega)) (by omega) (by omega) hap
      (by omega) (by omega) (by omega)
  · exact fits_space 3328 3329 (fun j _ _ => hs j (by omega)) (by omega) (by omega) hap
      (by omega) (by omega) (by omega)
  · exact fits_space 3328 3329 (fun j _ _ => hs j (by omega)) (by omega) (by omega) hap
      (by omega) (by omega) (by omega)
  · exact fits_space 4095 4096 (fun j _ _ => hs j (by omega)) (by omega) (by omega) hap
      (by omega) (by omega) (by omega)
  · rw [Layout.allocatableStart, v2p_eq (by omega) (by omega)]
    exact fits_space 2048 2304 (fun j _ _ => hs j (by omega)) (by omega) (by omega) hap
      (by omega) (by omega) (by omega)

section Setup

variable {L : Layout} {A : Arena} {m : Mem} {P U : Multiset Nat} {vm : SectionTable} {F : Prop}

theorem Walks.zero (h : Pool A m P U) (S : Finset Nat) :
    Walks A P U S SectionTable.zero (fun _ => none) m := by
  refine ⟨?_, ?_, ?_⟩
  · rwa [tables_zero, zero_add]
  · rw [sections_zero]
    exact Finset.empty_subset S
  · exact descriptor_zero _

/-- `setup_kernel_vm`: the walk is the kernel's. -/
theorem wp_setupKernelVm (h : Pool A m P U) (hN : U.card + 264 ≤ A.tableBudget) :
    wp (Small A) (setupKernelVm L) m fun vm m' =>
      Walks A P U spaceSections vm (kernelMap L) m' ∧ SameOn (held P U) m.ram m'.ram := by
  have := card_spaceSections
  exact wp_mapAll spaceSections_sub (by omega) (kernelMappings_fit L) (.zero h spaceSections)

/-! ### Single pages -/

/-- From `r` to `r'` only bytes of the pages `Q` change. -/
def WritesOnly (Q : Multiset Nat) (r r' : Bytes) : Prop :=
  ∀ a, (∀ p ∈ Q, a < p ∨ p + 4096 ≤ a) → r' a = r a

theorem WritesOnly.refl (Q : Multiset Nat) (r : Bytes) : WritesOnly Q r r := fun _ _ => rfl

theorem WritesOnly.trans {Q : Multiset Nat} {r r' r'' : Bytes} (h : WritesOnly Q r r')
    (h' : WritesOnly Q r' r'') : WritesOnly Q r r'' := fun a ha => (h' a ha).trans (h a ha)

theorem WritesOnly.mono {Q Q' : Multiset Nat} {r r' : Bytes} (h : WritesOnly Q r r')
    (hQ : ∀ p ∈ Q, p ∈ Q') : WritesOnly Q' r r' := fun a ha => h a fun p hp => ha p (hQ p hp)

/-- Another page keeps its bytes. -/
theorem WritesOnly.page {Q : Multiset Nat} {r r' : Bytes} {p a : Nat} (h : WritesOnly Q r r')
    (hQ : ∀ q ∈ Q, q % 4096 = 0) (hal : p % 4096 = 0) (hp : p ∉ Q) (h₁ : p ≤ a)
    (h₂ : a < p + 4096) : r' a = r a := by
  refine h a fun q hq => ?_
  have := hQ q hq
  have : q ≠ p := fun he => hp (he ▸ hq)
  omega

/-- Writes into a part of one of the pages. -/
theorem WritesOnly.of_range {Q : Multiset Nat} {r r' : Bytes} {p lo n : Nat} (hp : p ∈ Q)
    (hlo : p ≤ lo) (hhi : lo + n ≤ p + 4096)
    (h : ∀ a, a < lo ∨ lo + n ≤ a → r' a = r a) : WritesOnly Q r r' := fun a ha => by
  have := ha p hp
  exact h a (by omega)

/-- Writes into held pages keep the accounts and the other holders' bytes. -/
theorem Pool.writePages {Q T : Multiset Nat} {r : Bytes} (h : Pool A m (Q + P) T)
    (hr : WritesOnly Q m.ram r) :
    Pool A { m with ram := r } (Q + P) T ∧ SameOn (held P T) m.ram r := by
  have hn := h.held_nodup
  have hheld : held (Q + P) T = held Q 0 + held P T := by rw [← held_add, zero_add]
  have hin : ∀ a, chunkOf a ∉ held Q 0 → r a = m.ram a := by
    intro a ha
    refine hr a fun p hp => ?_
    have hal := h.page_aligned (Multiset.mem_add.mpr (.inl hp))
    by_contra hc
    refine ha (Multiset.mem_add.mpr (.inl (Multiset.mem_bind.mpr ⟨p, hp, ?_⟩)))
    exact (chunkOf_mem_pageChunks (by omega)).mpr (by omega)
  rw [hheld] at hn
  refine ⟨h.write fun a ha => hin a fun hc => ?_, fun a ha => hin a fun hc => ?_⟩
  · rw [hheld] at ha
    exact ha (Multiset.mem_add.mpr (.inl hc))
  · exact Multiset.disjoint_left.mp (Multiset.nodup_add.mp hn).2.2 hc ha

theorem Pool.writePage {p : Nat} {T : Multiset Nat} {r : Bytes} (h : Pool A m (p ::ₘ P) T)
    (hr : ∀ a, a < p ∨ p + 4096 ≤ a → r a = m.ram a) :
    Pool A { m with ram := r } (p ::ₘ P) T ∧ SameOn (held P T) m.ram r := by
  rw [← Multiset.singleton_add] at h ⊢
  exact h.writePages fun a ha => hr a (ha p (Multiset.mem_singleton_self p))

/-- The page `p` is all zero. -/
def Zeroed (r : Bytes) (p : Nat) : Prop := ∀ a, p ≤ a → a < p + 4096 → r a = 0

theorem zeroed_memset (r : Bytes) (p : Nat) : Zeroed (memset r p 0 4096) p := by
  intro a h₁ h₂
  rw [memset_apply, if_pos ⟨h₁, h₂⟩]

/-- A held page keeps its bytes. -/
theorem SameOn.page {r r' : Bytes} {p a : Nat} {T : Multiset Nat} (h : SameOn (held P T) r r')
    (hp : p ∈ P) (hal : p % 4096 = 0) (h₁ : p ≤ a) (h₂ : a < p + 4096) : r' a = r a := by
  refine h a (Multiset.mem_add.mpr (.inl (Multiset.mem_bind.mpr ⟨p, hp, ?_⟩)))
  exact (chunkOf_mem_pageChunks (by omega)).mpr ⟨h₁, h₂⟩

theorem Zeroed.same {r r' : Bytes} {p : Nat} {T : Multiset Nat} (hz : Zeroed r p)
    (h : SameOn (held P T) r r') (hp : p ∈ P) (hal : p % 4096 = 0) : Zeroed r' p := by
  intro a h₁ h₂
  rw [h.page hp hal h₁ h₂, hz a h₁ h₂]

/-- The mapping of a held page at `v`. -/
theorem wp_mapOne {D : Nat → Option PageTableEntry} {v p ap : Nat}
    (hN : U.card + 264 ≤ A.tableBudget) (h : Walks A P U spaceSections vm D m) (hp : p ∈ P)
    (hj : v / 4096 / 256 ∈ spaceSections) (hap : ap < 2 ^ 8) :
    wp (Small A) (mapPages vm ⟨v, v2p p, u32 (v2p p + 4096), ap⟩) m fun vm' m' =>
      Walks A P U spaceSections vm'
        (Function.update D (v / 4096) (some (pageEntry ap (v2p p / 4096)))) m' ∧
      SameOn (held P U) m.ram m'.ram := by
  have hcard := card_spaceSections
  have hal := h.pool.page_aligned hp
  obtain ⟨hlo, hhi⟩ := h.pool.page_bounds hp
  have hv : v2p p = p - 0x80000000 := v2p_eq hlo (by omega)
  have he : u32 (v2p p + 4096) = v2p p + 4096 := u32_of_lt (by omega)
  have hj' := Finset.mem_range.mp (spaceSections_sub hj)
  rw [he]
  have hfit : (MemoryMapping.mk v (v2p p) (v2p p + 4096) ap).Fits spaceSections := by
    refine fits_space (v / 4096 / 256) (v / 4096 / 256 + 1) ?_ (by omega) (by omega) hap (by omega)
      (by omega) (by omega)
    intro j h₁ h₂
    rwa [show j = v / 4096 / 256 by omega]
  refine wp_mono (wp_mapPages spaceSections_sub (by omega) hfit h) ?_
  rintro vm' m' ⟨hw, hs⟩
  refine ⟨⟨hw.pool, hw.inside, ?_⟩, hs⟩
  have hone : (v2p p + 4096 + 4095) / 4096 - v2p p / 4096 = 1 := by omega
  simp only [hw.walk, MemoryMapping.extend, MemoryMapping.count, hone]
  rw [← mapped_succ, mapped_zero, Nat.add_zero, Nat.add_zero]

end Setup

/-! ### Spaces -/

/-- What the page tables of a process map below `KERNEL_BASE`: addresses of held pages. -/
structure Space where
  kernelStack : Nat
  userStack : Nat
  frames : List Nat

namespace Space

/-- The pages of the space. -/
def pages (s : Space) : Multiset Nat := s.kernelStack ::ₘ s.userStack ::ₘ (s.frames : Multiset Nat)

/-- The space with one more heap frame. -/
def push (s : Space) (frame : Nat) : Space := { s with frames := s.frames ++ [frame] }

theorem pages_nil (kernelStack userStack : Nat) (P : Multiset Nat) :
    (Space.mk kernelStack userStack []).pages + P = kernelStack ::ₘ userStack ::ₘ P := by
  simp [pages]

theorem pages_push (s : Space) (frame : Nat) : (s.push frame).pages = frame ::ₘ s.pages := by
  simp only [pages, push, ← Multiset.coe_add, Multiset.coe_singleton]
  rw [add_comm, Multiset.singleton_add, Multiset.cons_swap _ frame, Multiset.cons_swap _ frame]

end Space

/-- The walk of a space: the heap from 0 up, the two stacks, the kernel's mappings. -/
def spaceMap (L : Layout) (s : Space) : Nat → Option PageTableEntry := fun page =>
  match s.frames[page]? with
  | some frame => some (pageEntry AP_RW_RW (v2p frame / 4096))
  | none =>
      if page = 0x7fffd then some (pageEntry AP_RW_RW (v2p s.userStack / 4096))
      else if page = 0x7fffe then some (pageEntry AP_RW_R (v2p s.kernelStack / 4096))
      else kernelMap L page

section Space

variable {L : Layout} {A : Arena} {m : Mem} {P U : Multiset Nat} {vm : SectionTable} {F : Prop}
  {s : Space}

/-- The pages a space maps: the heap and the stack, which the program may write, the kernel stack,
which it may read, and the kernel's, which it may not touch. -/
theorem spaceMap_some {page : Nat} {e : PageTableEntry} (h : spaceMap L s page = some e) :
    (∃ frame, s.frames[page]? = some frame ∧ e = pageEntry AP_RW_RW (v2p frame / 4096)) ∨
      (page = 0x7fffd ∧ e = pageEntry AP_RW_RW (v2p s.userStack / 4096)) ∨
      (page = 0x7fffe ∧ e = pageEntry AP_RW_R (v2p s.kernelStack / 4096)) ∨
      (kernelMap L page = some e ∧ e.accessPermissions = AP_RW_D) := by
  unfold spaceMap at h
  split at h
  next frame hf => exact .inl ⟨frame, hf, (Option.some.inj h).symm⟩
  · split at h
    next hp => exact .inr (.inl ⟨hp, (Option.some.inj h).symm⟩)
    split at h
    next hp => exact .inr (.inr (.inl ⟨hp, (Option.some.inj h).symm⟩))
    · exact .inr (.inr (.inr ⟨h, (kernelMap_some h).2⟩))

/-- What a user program can reach is a page of the space. -/
theorem spaceMap_user {page : Nat} {e : PageTableEntry} (h : spaceMap L s page = some e)
    (he : e.accessPermissions ≠ AP_RW_D) :
    ∃ p ∈ s.pages, ∃ ap, e = pageEntry ap (v2p p / 4096) := by
  rcases spaceMap_some h with ⟨frame, hf, rfl⟩ | ⟨-, rfl⟩ | ⟨-, rfl⟩ | ⟨-, hd⟩
  · exact ⟨frame, by simp [Space.pages, List.mem_of_getElem? hf], _, rfl⟩
  · exact ⟨s.userStack, by simp [Space.pages], _, rfl⟩
  · exact ⟨s.kernelStack, by simp [Space.pages], _, rfl⟩
  · exact absurd hd he

theorem spaceMap_new (L : Layout) (kernelStack userStack : Nat) :
    Function.update (Function.update (kernelMap L) 0x7fffe
        (some (pageEntry AP_RW_R (v2p kernelStack / 4096)))) 0x7fffd
        (some (pageEntry AP_RW_RW (v2p userStack / 4096))) =
      spaceMap L ⟨kernelStack, userStack, []⟩ := by
  funext page
  simp only [Function.update_apply, spaceMap, List.getElem?_nil]

theorem spaceMap_push (L : Layout) (s : Space) (frame : Nat) :
    Function.update (spaceMap L s) s.frames.length
        (some (pageEntry AP_RW_RW (v2p frame / 4096))) = spaceMap L (s.push frame) := by
  funext page
  rw [Function.update_apply]
  by_cases hp : page = s.frames.length
  · subst hp
    simp [spaceMap, Space.push]
  · rw [if_neg hp]
    unfold spaceMap Space.push
    by_cases hlt : page < s.frames.length
    · rw [List.getElem?_append_left hlt]
    · have h₁ : s.frames[page]? = none := List.getElem?_eq_none (by omega)
      have h₂ : (s.frames ++ [frame])[page]? = none := List.getElem?_eq_none (by simp; omega)
      rw [h₁, h₂]

theorem spaceMap_pop (L : Layout) (s : Space) (frame : Nat) (h : s.frames.length < 0x7fffd) :
    Function.update (spaceMap L (s.push frame)) s.frames.length none = spaceMap L s := by
  rw [← spaceMap_push, Function.update_idem]
  refine Function.update_eq_iff.mpr ⟨?_, fun _ _ => rfl⟩
  have hn : s.frames[s.frames.length]? = none := List.getElem?_eq_none le_rfl
  simp only [spaceMap, hn]
  rw [if_neg (by omega), if_neg (by omega), kernelMap_user (by omega)]

/-- The allocating part of `proc_create`: a section table and the two stacks. -/
def newSpace (L : Layout) : MemM (SectionTable × Nat × Nat) := do
  let kernelStack ← nonNull kalloc
  let userStack ← nonNull kalloc
  onRam (memset · kernelStack 0 4096)
  onRam (memset · userStack 0 4096)
  let vm ← setupKernelVm L
  let vm ← mapPages vm ⟨0x7fffe000, v2p kernelStack, u32 (v2p kernelStack + 4096), AP_RW_R⟩
  let vm ← mapPages vm ⟨0x7fffd000, v2p userStack, u32 (v2p userStack + 4096), AP_RW_RW⟩
  return (vm, kernelStack, userStack)

/-- The body of the loop of `proc_expand_memory`. -/
def growSpace (vm : SectionTable) (heapSize : Nat) : MemM SectionTable := do
  let page ← nonNull kalloc
  onRam (memset · page 0 4096)
  mapPages vm ⟨heapSize, v2p page, u32 (v2p page + 4096), AP_RW_RW⟩

/-- The part of the loop of `proc_shrink_memory` that works on memory. -/
def shrinkSpace (vm : SectionTable) (heapSize : Nat) : MemM Unit := do
  let virtualAddr := u32 (heapSize + 2 ^ 32 - 4096)
  let physicalAddr := resolvePhysicalAddress (← get).ram vm virtualAddr
  kfree (p2v physicalAddr)
  unmapPage vm virtualAddr

/-- **A new space**: two zeroed stacks, no heap, and the kernel's mappings. -/
theorem wp_newSpace (h : Pool A m P U) (hP : P.card + 2 ≤ A.pageBudget)
    (hN : U.card + 264 ≤ A.tableBudget) :
    wp (Small A) (newSpace L) m fun r m' =>
      Walks A (r.2.1 ::ₘ r.2.2 ::ₘ P) U spaceSections r.1 (spaceMap L ⟨r.2.1, r.2.2, []⟩) m' ∧
      SameOn (held P U) m.ram m'.ram ∧ Zeroed m'.ram r.2.1 ∧ Zeroed m'.ram r.2.2 := by
  unfold newSpace
  refine wp_seq (wp_kalloc h (by omega)) ?_
  rintro ks m₁ ⟨h₁, e₁⟩
  refine wp_seq (wp_kalloc h₁ (by rw [Multiset.card_cons]; omega)) ?_
  rintro us m₂ ⟨h₂, e₂⟩
  rw [Multiset.cons_swap] at h₂
  obtain ⟨h₃, s₃⟩ := h₂.writePage (r := memset m₂.ram ks 0 4096) fun a ha => memset_other ha
  rw [Multiset.cons_swap] at h₃
  obtain ⟨h₄, s₄⟩ := h₃.writePage (r := memset (memset m₂.ram ks 0 4096) us 0 4096)
    fun a ha => memset_other ha
  rw [Multiset.cons_swap] at h₄
  have hks : ks ∈ ks ::ₘ us ::ₘ P := Multiset.mem_cons_self _ _
  have hus : us ∈ ks ::ₘ us ::ₘ P := Multiset.mem_cons_of_mem (Multiset.mem_cons_self _ _)
  have aks := h₄.page_aligned hks
  have aus := h₄.page_aligned hus
  have hsec : ∀ v, 0x7ff00000 ≤ v → v < 0x80000000 → v / 4096 / 256 ∈ spaceSections :=
    fun v _ _ => mem_spaceSections.mpr (by omega)
  refine wp_modify_bind (wp_modify_bind ?_)
  refine wp_seq (wp_setupKernelVm h₄ hN) ?_
  rintro vm₅ m₅ ⟨h₅, s₅⟩
  refine wp_seq (wp_mapOne hN h₅ hks (hsec _ (by omega) (by omega)) (by decide)) ?_
  rintro vm₆ m₆ ⟨h₆, s₆⟩
  refine wp_seq (wp_mapOne hN h₆ hus (hsec _ (by omega) (by omega)) (by decide)) ?_
  rintro vm₇ m₇ ⟨h₇, s₇⟩
  have s₈ := (s₅.trans s₆).trans s₇
  refine wp_pure ⟨⟨h₇.pool, h₇.inside, ?_⟩, ?_, ?_, ?_⟩
  · rw [h₇.walk, ← spaceMap_new]
  · rw [← e₁, ← e₂]
    exact (s₃.tailPage.trans s₄.tailPage).trans s₈.tailPage.tailPage
  · exact ((zeroed_memset _ ks).same s₄ (Multiset.mem_cons_self _ _) aks).same s₈ hks aks
  · exact (zeroed_memset _ us).same s₈ hus aus

/-- The walk survives a change that keeps its tables. -/
theorem Walks.keep {S : Finset Nat} {D : Nat → Option PageTableEntry} {m' : Mem}
    {Q V : Multiset Nat} (h : Walks A P U S vm D m) (hp : Pool A m' Q (tables vm + V))
    (hs : SameOn (tables vm) m.ram m'.ram) : Walks A Q V S vm D m' := by
  refine ⟨hp, h.inside, ?_⟩
  rw [← h.walk]
  exact descriptor_congr hs

/-- The walk survives a write into a held page. -/
theorem Walks.writePage {S : Finset Nat} {D : Nat → Option PageTableEntry} {p : Nat} {r : Bytes}
    (h : Walks A (p ::ₘ P) U S vm D m) (hr : ∀ a, a < p ∨ p + 4096 ≤ a → r a = m.ram a) :
    Walks A (p ::ₘ P) U S vm D { m with ram := r } ∧
    SameOn (held P (tables vm + U)) m.ram r := by
  obtain ⟨hp, hs⟩ := h.pool.writePage hr
  exact ⟨h.keep hp hs.left, hs⟩

/-- **One more heap page**: zeroed, and mapped after the last one. -/
theorem wp_growSpace (h : Walks A P U spaceSections vm (spaceMap L s) m)
    (hlen : s.frames.length < 256) (hP : P.card < A.pageBudget)
    (hN : U.card + 264 ≤ A.tableBudget) :
    wp (Small A) (growSpace vm (4096 * s.frames.length)) m fun vm' m' => ∃ frame,
      Walks A (frame ::ₘ P) U spaceSections vm' (spaceMap L (s.push frame)) m' ∧
      SameOn (held P U) m.ram m'.ram ∧ Zeroed m'.ram frame := by
  unfold growSpace
  refine wp_seq (wp_kalloc h.pool hP) ?_
  rintro frame m₁ ⟨h₁, e₁⟩
  have w₁ : Walks A (frame ::ₘ P) U spaceSections vm (spaceMap L s) m₁ :=
    h.keep h₁ (e₁ ▸ .refl _ _)
  obtain ⟨w₂, s₂⟩ := w₁.writePage (r := memset m₁.ram frame 0 4096) fun a ha => memset_other ha
  have hf : frame ∈ frame ::ₘ P := Multiset.mem_cons_self _ _
  have hsec : 4096 * s.frames.length / 4096 / 256 ∈ spaceSections :=
    mem_spaceSections.mpr (.inl (.inl (by omega)))
  refine wp_modify_bind ?_
  refine wp_mono (wp_mapOne hN w₂ hf hsec (by decide)) ?_
  rintro vm₃ m₃ ⟨h₃, s₃⟩
  refine ⟨frame, ⟨h₃.pool, h₃.inside, ?_⟩, ?_, ?_⟩
  · rw [h₃.walk, Nat.mul_div_cancel_left _ (by decide), spaceMap_push]
  · rw [← e₁]
    exact s₂.right.trans s₃.tailPage
  · exact (zeroed_memset _ frame).same s₃ hf (h₁.page_aligned hf)

/-- **The last heap page back**: the frame goes to the allocator, the mapping goes. -/
theorem wp_shrinkSpace {frame : Nat}
    (h : Walks A (frame ::ₘ P) U spaceSections vm (spaceMap L (s.push frame)) m)
    (hlen : s.frames.length < 256) :
    wp F (shrinkSpace vm (4096 * (s.frames.length + 1))) m fun _ m' =>
      Walks A P U spaceSections vm (spaceMap L s) m' ∧ SameOn (held P U) m.ram m'.ram := by
  have hf : frame ∈ frame ::ₘ P := Multiset.mem_cons_self _ _
  have hal := h.pool.page_aligned hf
  obtain ⟨hlo, hhi⟩ := h.pool.page_bounds hf
  have hva : u32 (4096 * (s.frames.length + 1) + 2 ^ 32 - 4096) = 4096 * s.frames.length := by
    rw [u32]
    omega
  have hdiv : 4096 * s.frames.length / 4096 = s.frames.length :=
    Nat.mul_div_cancel_left _ (by decide)
  have hD : spaceMap L (s.push frame) (4096 * s.frames.length / 4096) =
      some (pageEntry AP_RW_RW (v2p frame / 4096)) := by
    rw [hdiv, ← spaceMap_push, Function.update_self]
  have hres : p2v (resolvePhysicalAddress m.ram vm (4096 * s.frames.length)) = frame := by
    rw [h.resolve hD]
    have hv := v2p_eq hlo (by omega)
    rw [show (pageEntry AP_RW_RW (v2p frame / 4096)).baseAddress * 4096 +
      4096 * s.frames.length % 4096 = v2p frame by simp only [pageEntry]; omega]
    exact p2v_v2p hlo (by omega)
  unfold shrinkSpace
  rw [hva]
  refine wp_get_bind ?_
  dsimp only
  rw [hres]
  refine wp_seq (wp_kfree h.pool) ?_
  rintro - m₁ ⟨h₁, s₁⟩
  have hne : spaceMap L (s.push frame) (4096 * s.frames.length / 2 ^ 12) ≠ none := by
    rw [show (2 : Nat) ^ 12 = 4096 from rfl, hD]
    exact Option.some_ne_none _
  refine wp_mono (wp_unmapPage (h.keep h₁ s₁.left) hne) ?_
  rintro - m₂ ⟨h₂, s₂⟩
  refine ⟨⟨h₂.pool, h₂.inside, ?_⟩, s₁.right.trans s₂⟩
  rw [h₂.walk, show (2 : Nat) ^ 12 = 4096 from rfl, hdiv, spaceMap_pop L s frame (by omega)]

end Space

end Arunos
