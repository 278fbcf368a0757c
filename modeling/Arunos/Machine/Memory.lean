import Arunos.Machine.Step
import Arunos.Proc.Program

/-!
# Machine — Memory — who owns the memory of the running system

What holds of memory in every reachable machine, in the kernel's own terms: free lists followed
through memory, frames read from page tables, fields of the process table.

* `memory_ledger`: the two free lists, the kernel's page tables and what the slots in use hold are
  the pages given to the allocator, each once.
* `address_spaces_isolated`: at each kernel exit the pages a process may write are its heap and its
  stack, their frames belong to nobody else, and the kernel's mappings are the kernel's.
* `fork_copies`: the child of `fork` has the parent's bytes in frames of its own, and everybody else
  is as they were.
* `exec_reads_own_name`: `exec` reads through the caller's pointer only what the caller may read,
  and loads the program whose name is there.
* `failed_load_atomic`: a `proc_load_program` that fails leaves every process as it was.
* `allocation_never_fails`: with a kernel image below 16 MiB nothing ever faults for lack of
  memory.
-/

namespace Arunos

variable {σ : Type} {L : Layout} {k k' : Kernel σ} {sp : Fin 10 → Option Space} {i j : Fin 10}

/-! ### The kernel's view -/

/-- The blocks of a slot, in chunks of 1K: its pages and its page tables. -/
def slotChunks (k : Kernel σ) (i : Fin 10) : Multiset Nat :=
  if (k.processTable i).state = .UNUSED then 0
  else (processPages k i : Multiset Nat).bind pageChunks + tables (vmOf k i)

theorem Owns.slotChunks (h : Owns L k sp) (i : Fin 10) :
    slotChunks k i = held (slotPages (sp i)) (slotTables (k.processVm i) (sp i)) := by
  unfold Arunos.slotChunks
  cases hi : sp i with
  | none =>
      rw [if_pos ((h.2 i).mpr hi)]
      rfl
  | some s =>
      rw [if_neg fun e => by simp [(h.2 i).mp e] at hi, h.1.processPages hi, (h.1.slot i s hi).vmOf]
      rfl

theorem sum_held {ι : Type} (S : Finset ι) (P T : ι → Multiset Nat) :
    ∑ i ∈ S, held (P i) (T i) = held (∑ i ∈ S, P i) (∑ i ∈ S, T i) := by
  classical
  induction S using Finset.induction_on with
  | empty => rfl
  | insert i S hi ih => rw [Finset.sum_insert hi, Finset.sum_insert hi, Finset.sum_insert hi, ih,
      held_add]

/-! ### Ownership -/

/-- The free lists, the tables of `kernel_vm` and the blocks of the slots in use are the pages given
to the allocator, each once. -/
structure Ledger (L : Layout) (k : Kernel σ) (free4k free1k : List Nat) : Prop where
  list4k : Linked k.mem.ram k.mem.freeList4k free4k
  list1k : Linked k.mem.ram k.mem.freeList1k free1k
  blocks : (free4k : Multiset Nat).bind pageChunks + (free1k : Multiset Nat) + tables k.kernelVm +
    ∑ i, slotChunks k i = (bootPages L).bind pageChunks
  once : ((free4k : Multiset Nat).bind pageChunks + (free1k : Multiset Nat) + tables k.kernelVm +
    ∑ i, slotChunks k i).Nodup
  aligned : (∀ p ∈ free4k, p % 4096 = 0) ∧
    ∀ i, (k.processTable i).state ≠ .UNUSED → ∀ p ∈ processPages k i, p % 4096 = 0

theorem Owns.ledger (h : Owns L k sp) : ∃ free4k free1k, Ledger L k free4k free1k := by
  obtain ⟨l4, l1, hc⟩ := h.1.pool.core
  have hsum : ∑ i, Arunos.slotChunks k i =
      held (allPages sp) (∑ i, slotTables (k.processVm i) (sp i)) := by
    rw [allPages, ← sum_held]
    exact Finset.sum_congr rfl fun i _ => h.slotChunks i
  have hblocks : (l4 : Multiset Nat).bind pageChunks + (l1 : Multiset Nat) + tables k.kernelVm +
      ∑ i, Arunos.slotChunks k i = (bootPages L).bind pageChunks := by
    have hchunks : (bootArena L).chunks = (bootPages L).bind pageChunks := rfl
    rw [hsum, ← hchunks, ← hc.ledger, allTables, held, held, add_assoc,
      add_left_comm (tables k.kernelVm)]
  refine ⟨l4, l1, hc.list4, hc.list1, hblocks, ?_, hc.aligned4, fun i hi p hp => ?_⟩
  · rw [hblocks]
    exact (bootArena L).pageSet.chunks_nodup
  · obtain ⟨s, hs⟩ := Option.ne_none_iff_exists'.mp fun e => hi ((h.2 i).mpr e)
    refine hc.alignedP p ?_
    rw [allPages_eq i, hs]
    refine Multiset.mem_add.mpr (.inl ?_)
    rw [slotPages, ← h.1.processPages hs]
    exact hp

theorem Sane.owns {m : Machine σ} (h : Sane L m) : ∃ sp, Owns L m.kernel sp := by
  rcases h with ⟨a, sp, hin, -⟩ | ⟨k, rfl, -, -, hsp⟩
  · exact ⟨sp, hin.runs.owns⟩
  · exact hsp

/-! ### Isolation -/

/-- A page table entry lets user programs write. -/
def UserWrites (e : PageTableEntry) : Prop := e.accessPermissions = AP_RW_RW

/-- A page table entry lets user programs read or write. -/
def UserAccesses (e : PageTableEntry) : Prop := e.accessPermissions ≠ AP_RW_D

/-- The kernel's address of the frame of an entry. -/
def frameOf (e : PageTableEntry) : Nat := p2v (e.baseAddress * 4096)

/-- The frame `p` belongs to slot `i` alone.  `mappings` is about the slots in use: a slot that is
not keeps the section entries of its last process, which `proc_free` leaves there and
`proc_create` clears before the slot is used again. -/
structure OwnedBy (k : Kernel σ) (i : Fin 10) (p : Nat) : Prop where
  mappings : ∀ j ≠ i, (k.processTable j).state ≠ .UNUSED → ∀ page e,
    descriptor k.mem.ram (k.processVm j) page = some e → UserAccesses e → frameOf e ≠ p
  free4k : ∀ free4k, Linked k.mem.ram k.mem.freeList4k free4k →
    ∀ q ∈ free4k, ∀ c ∈ pageChunks q, c ∉ pageChunks p
  free1k : ∀ free1k, Linked k.mem.ram k.mem.freeList1k free1k → ∀ c ∈ free1k, c ∉ pageChunks p
  kernelTables : ∀ t ∈ tables k.kernelVm, t ∉ pageChunks p
  tables : ∀ j, (k.processTable j).state ≠ .UNUSED → ∀ t ∈ tables (k.processVm j),
    t ∉ pageChunks p

/-- The address space of the process in slot `i` is its own. -/
structure Isolated (k : Kernel σ) (i : Fin 10) : Prop where
  vm : (k.processTable i).vm = some i
  writable : ∀ page, (∃ e, descriptor k.mem.ram (k.processVm i) page = some e ∧ UserWrites e) ↔
    page * 4096 < (k.processTable i).heapSize ∨ page * 4096 = 0x7fffd000
  stack : ∃ e, descriptor k.mem.ram (k.processVm i) (0x7fffd000 / 4096) = some e ∧
    e.baseAddress * 4096 = v2p (k.processTable i).userStack
  owned : ∀ page e, descriptor k.mem.ram (k.processVm i) page = some e → UserWrites e →
    OwnedBy k i (frameOf e)
  kernel : ∀ page, 0x80000000 ≤ page * 4096 →
    descriptor k.mem.ram (k.processVm i) page = descriptor k.mem.ram k.kernelVm page ∧
    ∀ e, descriptor k.mem.ram (k.processVm i) page = some e → ¬ UserAccesses e

theorem World.frameOf_pageEntry (h : World L k sp) {p ap : Nat} (hp : p ∈ slotPages (sp i)) :
    frameOf (pageEntry ap (v2p p / 4096)) = p := by
  have hall : p ∈ allPages sp := by
    rw [allPages_eq i]
    exact Multiset.mem_add.mpr (.inl hp)
  have hal := h.pool.page_aligned hall
  obtain ⟨hlo, hhi⟩ := h.pool.page_bounds hall
  rw [frameOf, pageEntry, v2p_eq hlo (by omega), p2v, u32]
  dsimp only
  omega

/-- A page of a slot is nobody else's. -/
theorem Owns.ownedBy (h : Owns L k sp) {p : Nat} (hp : p ∈ slotPages (sp i)) : OwnedBy k i p := by
  obtain ⟨l4, l1, hc⟩ := h.1.pool.core
  have hn := hc.toAccounts.nodup
  have hall : p ∈ allPages sp := by
    rw [allPages_eq i]
    exact Multiset.mem_add.mpr (.inl hp)
  have hpage : ∀ c ∈ pageChunks p, c ∈ (allPages sp).bind pageChunks := fun c hcp =>
    Multiset.mem_bind.mpr ⟨p, hall, hcp⟩
  have hlists := (Multiset.nodup_add.mp hn).2.2
  have htables := (Multiset.nodup_add.mp (Multiset.nodup_add.mp hn).2.1).2.2
  refine ⟨?_, ?_, ?_, ?_, ?_⟩
  · intro j hj hlive page e he hu
    obtain ⟨s, hs⟩ := Option.ne_none_iff_exists'.mp fun hnone => hlive ((h.2 j).mpr hnone)
    rw [(h.1.slot j s hs).walk] at he
    obtain ⟨q, hq, ap, rfl⟩ := spaceMap_user he hu
    have hq' := mem_slotPages hs hq
    rw [h.1.frameOf_pageEntry hq']
    exact h.1.page_ne hj hp hq'
  · intro free4k hl q hq c hcq hcp
    obtain rfl := hl.unique hc.list4
    exact Multiset.disjoint_left.mp hlists (Multiset.mem_add.mpr (.inl
      (Multiset.mem_bind.mpr ⟨q, hq, hcq⟩))) (Multiset.mem_add.mpr (.inl (hpage c hcp)))
  · intro free1k hl c hcl hcp
    obtain rfl := hl.unique hc.list1
    exact Multiset.disjoint_left.mp hlists (Multiset.mem_add.mpr (.inr hcl))
      (Multiset.mem_add.mpr (.inl (hpage c hcp)))
  · intro t ht htp
    exact Multiset.disjoint_left.mp htables (hpage t htp) (Multiset.mem_add.mpr (.inl ht))
  · intro j hlive t ht htp
    obtain ⟨s, hs⟩ := Option.ne_none_iff_exists'.mp fun hnone => hlive ((h.2 j).mpr hnone)
    refine Multiset.disjoint_left.mp htables (hpage t htp) ?_
    rw [allTables_eq j, hs]
    exact Multiset.mem_add.mpr (.inl ht)

theorem Owns.isolated (h : Owns L k sp) (hi : (k.processTable i).state ≠ .UNUSED) :
    Isolated k i := by
  obtain ⟨s, hs⟩ := Option.ne_none_iff_exists'.mp fun hnone => hi ((h.2 i).mpr hnone)
  have hslot := h.1.slot i s hs
  have hd := hslot.fields
  have hlen := hd.frames
  have hnone : ∀ page, 256 ≤ page → s.frames[page]? = none := fun page hp =>
    List.getElem?_eq_none (by omega)
  have hstack : spaceMap L s 0x7fffd = some (pageEntry AP_RW_RW (v2p s.userStack / 4096)) := by
    simp only [spaceMap, hnone 0x7fffd (by decide), if_true]
  refine ⟨hd.vm, fun page => ⟨?_, ?_⟩, ?_, ?_, ?_⟩
  · rintro ⟨e, he, hu⟩
    rw [hslot.walk] at he
    rw [hd.heapSize]
    rcases spaceMap_some he with ⟨frame, hf, -⟩ | ⟨rfl, -⟩ | ⟨-, rfl⟩ | ⟨-, hk⟩
    · have := (List.getElem?_eq_some_iff.mp hf).1
      exact .inl (by omega)
    · exact .inr rfl
    · cases hu
    · rw [UserWrites, hk] at hu
      cases hu
  · rw [hslot.walk, hd.heapSize]
    rintro (hp | hp)
    · have hlt : page < s.frames.length := by omega
      exact ⟨pageEntry AP_RW_RW (v2p s.frames[page] / 4096),
        (spaceMap_frame (List.getElem?_eq_getElem hlt)).1, rfl⟩
    · obtain rfl : page = 0x7fffd := by omega
      exact ⟨_, hstack, rfl⟩
  · rw [hslot.walk, hd.userStack]
    refine ⟨_, hstack, ?_⟩
    have hmem : s.userStack ∈ allPages sp := by
      rw [allPages_eq i, hs]
      exact Multiset.mem_add.mpr (.inl (by simp [slotPages, Space.pages]))
    have hal := h.1.pool.page_aligned hmem
    obtain ⟨hlo, hhi⟩ := h.1.pool.page_bounds hmem
    rw [pageEntry, v2p_eq hlo (by omega)]
    dsimp only
    omega
  · intro page e he hu
    rw [hslot.walk] at he
    have hne : e.accessPermissions ≠ AP_RW_D := by
      rw [show e.accessPermissions = _ from hu]
      decide
    obtain ⟨q, hq, ap, rfl⟩ := spaceMap_user he hne
    have hq' := mem_slotPages hs hq
    rw [h.1.frameOf_pageEntry hq']
    exact h.ownedBy hq'
  · intro page hp
    have hmap : spaceMap L s page = kernelMap L page := by
      simp only [spaceMap, hnone page (by omega)]
      rw [if_neg (by omega), if_neg (by omega)]
    rw [hslot.walk, h.1.kernelWalk, hmap]
    exact ⟨rfl, fun e he hu => hu (kernelMap_some he).2⟩

/-- The kernel reads a byte of the process in slot `i` where the process has it: in a page mapped
for user programs, whose frame is nobody else's. -/
def OwnByte (k : Kernel σ) (i : Fin 10) (b : NameByte) : Prop :=
  ∃ e, descriptor k.mem.ram (k.processVm i) (b.addr / 4096) = some e ∧ UserWrites e ∧
    OwnedBy k i (frameOf e) ∧ b.source = frameOf e + b.addr % 4096

/-- The page tables agree with `heap_size`: what may be read is mapped. -/
theorem spaceMap_readable {s : Space} {addr : Nat} (h : SlotOk L k i s)
    (hr : UserReadable k i addr) :
    ∃ p ∈ s.pages, spaceMap L s (addr / 4096) = some (pageEntry AP_RW_RW (v2p p / 4096)) := by
  rcases hr with hheap | ⟨hlo, hhi⟩
  · rw [h.fields.heapSize] at hheap
    have hframe := List.getElem?_eq_getElem (show addr / 4096 < s.frames.length by omega)
    obtain ⟨hm, hp⟩ := spaceMap_frame (L := L) hframe
    exact ⟨_, hp, hm⟩
  · refine ⟨s.userStack, by simp [Space.pages], ?_⟩
    rw [show addr / 4096 = 0x7fffd by omega]
    exact (spaceMap_stacks L h.fields.frames).1

theorem Owns.ownByte (h : Owns L k sp) {s : Space} (hs : sp i = some s) {b : NameByte}
    (hr : UserReadable k i b.addr)
    (hb : b.source = p2v (resolvePhysicalAddress k.mem.ram (vmOf k i) b.addr)) : OwnByte k i b := by
  have hslot := h.1.slot i s hs
  obtain ⟨p, hp, hm⟩ := spaceMap_readable hslot hr
  have hslots := mem_slotPages hs hp
  refine ⟨pageEntry AP_RW_RW (v2p p / 4096), by rw [hslot.walk, hm], rfl, ?_, ?_⟩
  · rw [h.1.frameOf_pageEntry hslots]
    exact h.ownedBy hslots
  · rw [hb, hslot.vmOf, h.1.frameOf_pageEntry hslots, h.1.resolve hs hm hp]

/-- The walk over a name ends below the end of the address space. -/
theorem Owns.reads_no_wrap (h : Owns L k sp) {s : Space} (hs : sp i = some s) {addr n : Nat}
    {reads : List NameByte} (hreads : Reads k i n addr reads) (haddr : addr < 2 ^ 32) :
    addr + reads.length < 2 ^ 32 := by
  rcases Nat.eq_zero_or_pos reads.length with hn | hn
  · omega
  -- the last address read is in the heap or in the stack
  have hlast : addr + (reads.length - 1) ∈ reads.map NameByte.addr := by
    rw [hreads.addrs, List.mem_range'_1]
    omega
  obtain ⟨b, hb, hb'⟩ := List.mem_map.mp hlast
  have hheap := (h.1.slot i s hs).fields.heapSize
  have hframes := (h.1.slot i s hs).fields.frames
  rcases hreads.readable b hb with hr | hr <;> omega

/-! ### Unwinding -/

/-- The process in slot `j` is as it was: its fields with the saved context, its section table, its
page tables, and the bytes of its heap and its stacks. -/
structure Unchanged (k k' : Kernel σ) (j : Fin 10) : Prop where
  process : k'.processTable j = k.processTable j
  vm : vmOf k' j = vmOf k j
  pageTables : ∀ t ∈ tables (vmOf k j), ∀ x < 1024, k'.mem.ram (t + x) = k.mem.ram (t + x)
  pages : ∀ p ∈ processPages k j, ∀ x < 4096, k'.mem.ram (p + x) = k.mem.ram (p + x)

theorem Spares.unchanged {sp' : Fin 10 → Option Space} (h : Spares j sp sp' k k')
    (hw : World L k sp) {s : Space} (hj : sp j = some s)
    (ht : k'.processTable j = k.processTable j) : Unchanged k k' j := by
  have hvm := (hw.slot j s hj).vmOf
  have hram := h.ram
  rw [hj] at hram
  refine ⟨ht, ?_, fun t htab x hx => hram _ ?_, fun p hp x hx => ?_⟩
  · rw [hvm, vmOf, ht, (hw.slot j s hj).fields.vm]
    exact h.vm
  · have hall : t ∈ allTables k sp := by
      rw [allTables_eq j, hj]
      exact Multiset.mem_add.mpr (.inl (hvm ▸ htab))
    have hal := (bootArena L).chunk_aligned (hw.pool.chunk_mem hall)
    rw [chunkOf, show (t + x) / 1024 * 1024 = t by omega]
    exact Multiset.mem_add.mpr (.inr (hvm ▸ htab))
  · have hpage : p ∈ s.pages := by
      rw [← hw.processPages hj]
      exact hp
    exact hram.page hpage (hw.page_aligned hj hpage).1 (by omega) (by omega)

theorem Kept.unchanged (h : Kept sp k k') (hw : World L k sp) {s : Space} (hj : sp j = some s) :
    Unchanged k k' j := by
  have hl := live_of_space hj
  exact (h.spares hl).unchanged hw hj (h.table j hl)

theorem Kept.allTables_eq (h : Kept sp k k') : allTables k' sp = allTables k sp := by
  unfold allTables
  rw [h.kernelVm]
  refine congrArg _ (Finset.sum_congr rfl fun j _ => ?_)
  cases hj : sp j with
  | none => rfl
  | some s =>
      rw [h.vms j (live_of_space hj)]

/-- The number of bytes `get_free_memory_size` reports. -/
theorem World.freeMemory (h : World L k sp) (h' : World L k' sp)
    (ht : allTables k' sp = allTables k sp) :
    ∃ n, ∀ fuel > 2 ^ 18, getFreeMemorySize k.mem fuel = some n ∧
      getFreeMemorySize k'.mem fuel = some n := by
  refine ⟨_, fun fuel hf => ⟨getFreeMemorySize_eq h.pool hf, ?_⟩⟩
  rw [← ht]
  exact getFreeMemorySize_eq h'.pool hf

/-! ### Every reachable machine -/

/-- The page tables of `kernel_vm` and of the slots in use. -/
def livePageTables (k : Kernel σ) : Multiset Nat :=
  tables k.kernelVm + ∑ i, if (k.processTable i).state = .UNUSED then 0 else tables (vmOf k i)

theorem Owns.livePageTables (h : Owns L k sp) : livePageTables k = allTables k sp := by
  refine congrArg (tables k.kernelVm + ·) (Finset.sum_congr rfl fun i _ => ?_)
  cases hi : sp i with
  | none =>
      rw [if_pos ((h.2 i).mpr hi)]
      rfl
  | some s =>
      rw [if_neg fun e => by simp [(h.2 i).mp e] at hi, (h.1.slot i s hi).vmOf]
      rfl

variable [BlockDevice σ]

/-- **Memory has one owner.**  In every reachable machine the free lists, the kernel's page tables
and the stacks, heap frames and page tables of the slots in use are disjoint, without repetition,
and make up the pages given to `kalloc_init`. -/
theorem memory_ledger {m : Machine σ} (h : (arunos σ L).Reachable m) :
    ∃ free4k free1k, Ledger L m.kernel free4k free1k := by
  obtain ⟨sp, hsp⟩ := (Reachable.sane h).owns
  exact hsp.ledger

/-- The shell and its child are among the owners. -/
theorem memory_ledger_shell : ∃ (k : Kernel shellDisk.Reader) (cpu : Context),
    (arunos shellDisk.Reader smallLayout).Reachable (.user k cpu) ∧
      (k.processTable 0).state = .READY ∧ (k.processTable 1).state = .READY ∧
      ∃ free4k free1k, Ledger smallLayout k free4k free1k := by
  obtain ⟨k, cpu, hr, h₀, h₁⟩ := exists_forked
  exact ⟨k, cpu, hr, h₀, h₁, memory_ledger hr⟩

/-- **Address spaces are isolated** at every kernel exit. -/
theorem address_spaces_isolated {cpu : Context} (h : (arunos σ L).Reachable (.user k cpu))
    (hi : (k.processTable i).state ≠ .UNUSED) : Isolated k i := by
  obtain ⟨sp, hsp⟩ := (Reachable.sane h).owns
  exact hsp.isolated hi

/-- The shell and its child are isolated from each other. -/
theorem address_spaces_isolated_shell : ∃ (k : Kernel shellDisk.Reader) (cpu : Context),
    (arunos shellDisk.Reader smallLayout).Reachable (.user k cpu) ∧
      (k.processTable 0).state = .READY ∧ (k.processTable 1).state = .READY ∧
      Isolated k 0 ∧ Isolated k 1 := by
  obtain ⟨k, cpu, hr, h₀, h₁⟩ := exists_forked
  exact ⟨k, cpu, hr, h₀, h₁, address_spaces_isolated hr (by rw [h₀]; decide),
    address_spaces_isolated hr (by rw [h₁]; decide)⟩

/-- In `k'` slot `i` has a copy of the process that slot `c` has in `k`. -/
structure CopyOf (k k' : Kernel σ) (c i : Fin 10) : Prop where
  state : (k'.processTable i).state = .READY
  waitPid : (k'.processTable i).waitPid = -1
  heapSize : (k'.processTable i).heapSize = (k.processTable c).heapSize
  heap : ∀ a < (k.processTable c).heapSize, byteAt k' i a = byteAt k c a
  userStack : ∀ x < 4096, byteAt k' i (0x7fffd000 + x) = byteAt k c (0x7fffd000 + x)
  result : (k'.processTable i).context .R0 = 0
  context : ∀ r ≠ .R0, (k'.processTable i).context r = (k.processTable c).context r
  apart : ∀ p ∈ processPages k' i, ∀ q ∈ processPages k c, p + 4096 ≤ q ∨ q + 4096 ≤ p

omit [BlockDevice σ] in
theorem Forked.copyOf {c : Fin 10} {s s' : Space} (h : Forked L sp k c i s s' k')
    (hw : World L k sp) (hs : sp c = some s) (hfree : sp i = none) : CopyOf k k' c i := by
  have hci : c ≠ i := slot_ne (live_of_space hs) hfree
  have hi := Function.update_self i (some s') sp
  have hc : Function.update sp i (some s') c = some s := (Function.update_of_ne hci _ _).trans hs
  have hheap : (k.processTable c).heapSize = 4096 * s.frames.length :=
    (hw.slot c s hs).fields.heapSize
  refine ⟨h.state, h.waitPid, ?_, fun a ha => ?_, fun x hx => ?_, ?_, fun r hr => ?_,
    fun p hp q hq => ?_⟩
  · rw [(h.world.slot i s' hi).fields.heapSize, hheap, h.frames]
  · rw [hheap] at ha
    rw [h.world.byteAt_heap hi (by rw [h.frames]; exact ha), hw.byteAt_heap hs ha, h.heap a ha]
  · rw [h.world.byteAt_userStack hi hx, hw.byteAt_userStack hs hx, h.userStack x hx]
  · rw [h.context, childContext, Function.update_self]
  · rw [h.context, childContext, Function.update_of_ne hr]
  · rw [← Multiset.mem_coe, h.world.processPages hi] at hp
    rw [← Multiset.mem_coe, hw.processPages hs] at hq
    have h₁ := (h.world.page_aligned hi hp).1
    have h₂ := (hw.page_aligned hs hq).1
    have hne := h.world.page_ne hci (mem_slotPages hi hp) (mem_slotPages hc hq)
    omega

omit [BlockDevice σ] in
theorem Forked.unchanged {c : Fin 10} {s s' t : Space} (h : Forked L sp k c i s s' k')
    (hw : World L k sp) (hfree : sp i = none) (hj : sp j = some t) : Unchanged k k' j := by
  have hl := live_of_space hj
  have hne : j ≠ i := slot_ne hl hfree
  exact (h.frame.spares hne hl (Function.update_of_ne hne (some s') sp)).unchanged hw hj
    (h.frame.table j hne hl)

/-- **`fork` copies exactly.**  In every reachable machine, when the running process traps,
`syscall_fork` returns -1 and does nothing if every slot is in use; otherwise it returns the pid of
the first free slot, which has a copy of the process, and every process there was is as it was. -/
theorem fork_copies {cpu : Context} (h : (arunos σ L).Reachable (.user k cpu)) :
    ∃ c out k', k.currentProcess = some c ∧
      (syscallFork L).run (saveContext k cpu) = some (out, k') ∧
      ((∀ j, (k.processTable j).state ≠ .UNUSED) ∧ out = .ret (-1) ∧ k' = saveContext k cpu ∨
      ∃ i, (k.processTable i).state = .UNUSED ∧ (∀ j < i, (k.processTable j).state ≠ .UNUSED) ∧
        out = .ret (k'.processTable i).pid ∧ (k'.processTable i).pid = i.val + 1 ∧
        CopyOf (saveContext k cpu) k' c i ∧
        ∀ j, (k.processTable j).state ≠ .UNUSED → Unchanged (saveContext k cpu) k' j) := by
  rcases Reachable.sane h with ⟨a, sp, hin, -⟩ | ⟨_, hk, -⟩
  · cases hin with
    | user c hruns hc hr =>
        obtain ⟨hsave, -⟩ := hruns.saveContext hc cpu
        obtain ⟨s, hs⟩ := hsave.space (i := c) (by rw [hr]; simp)
        -- saving the registers changes no state
        have hstate : ∀ j, (k.processTable j).state = .UNUSED ↔
            ((saveContext k cpu).processTable j).state = .UNUSED := fun j =>
          (hruns.owns.2 j).trans (hsave.owns.2 j).symm
        simp only [ne_eq, hstate]
        generalize saveContext k cpu = k₁ at hsave
        obtain ⟨out, k', hrun, hout⟩ := (wp_fork hsave.world hsave.unused (hsave.current.trans hc)
          (hsave.ttb.trans hc) hs).total (bootArena_roomy L)
        refine ⟨c, out, k', hruns.current.trans hc, hrun, ?_⟩
        rcases hout with ⟨hfull, rfl, rfl⟩ | ⟨i, s', rfl, hf⟩
        · exact .inl ⟨firstUnused_none hfull, rfl, rfl⟩
        have hunused := firstUnused_some hf.unused
        have hpid := (hf.world.slot i s' (Function.update_self _ _ _)).fields.pid
        have hi := hsave.unused i hunused
        refine .inr ⟨i, hunused, fun j => firstUnused_before hf.unused, by rw [hpid], hpid,
          hf.copyOf hsave.world hs hi, fun j hj => ?_⟩
        obtain ⟨t, ht⟩ := Option.ne_none_iff_exists'.mp fun e => hj ((hsave.owns.2 j).mpr e)
        exact hf.unchanged hsave.world hi ht
  · cases hk

/-- The first `fork` of the shell. -/
theorem fork_copies_shell : ∃ (k : Kernel shellDisk.Reader) (cpu : Context)
      (k' : Kernel shellDisk.Reader) (out : Outcome) (i : Fin 10),
    (arunos shellDisk.Reader smallLayout).Reachable (.user k cpu) ∧
      (k.processTable 1).state = .UNUSED ∧
      (syscallFork smallLayout).run (saveContext k cpu) = some (out, k') ∧
      CopyOf (saveContext k cpu) k' 0 i := by
  obtain ⟨k, cpu, s, hr, hs⟩ := exists_running
  have hunused : (k.processTable 1).state = .UNUSED := hs.runs.view 1
  obtain ⟨c, out, k', hc, hrun, hout⟩ := fork_copies hr
  obtain rfl : 0 = c := Option.some.inj (hs.runs.current.symm.trans hc)
  rcases hout with ⟨hfull, -⟩ | ⟨i, -, -, -, -, hcopy, -⟩
  · exact absurd hunused (hfull 1)
  · exact ⟨k, cpu, k', out, i, hr, hunused, hrun, hcopy⟩

/-- **`exec` reads only the caller's memory and exactly the name.**  In every reachable machine,
when the running process traps, and for every pointer: `syscall_exec` reads at most 13 bytes, one
after the other from the pointer on without wrapping, each of them in the heap or the user stack of
the caller and in a frame that is the caller's alone.  It calls `proc_load_program` exactly when the
pointer is not null and the string there, with its NUL, has at most 13 bytes that all may be read;
the call is for the caller and that string.  Otherwise it returns -1 and does nothing. -/
theorem exec_reads_own_name {cpu : Context} (h : (arunos σ L).Reachable (.user k cpu))
    {userName : Nat} (hu : userName < 2 ^ 32) :
    ∃ c out scan k', k.currentProcess = some c ∧
      (syscallExecLog L userName).run (saveContext k cpu) = some ((out, scan), k') ∧
      (syscallExec L userName).run (saveContext k cpu) = some (out, k') ∧
      (∀ b ∈ scan.reads, UserReadable (saveContext k cpu) c b.addr ∧
        OwnByte (saveContext k cpu) c b) ∧
      scan.reads.map NameByte.addr = List.range' userName scan.reads.length ∧
      scan.reads.length ≤ 13 ∧ userName + scan.reads.length < 2 ^ 32 ∧
      (∀ p name, scan.load = some (p, name) ↔
        p = c ∧ userName ≠ 0 ∧ NameAt (saveContext k cpu) c 13 userName name) ∧
      (scan.load = none → out = .ret (-1) ∧ k' = saveContext k cpu) := by
  rcases Reachable.sane h with ⟨a, sp, hin, -⟩ | ⟨_, hk, -⟩
  · cases hin with
    | user c hruns hc hr =>
        obtain ⟨hsave, -⟩ := hruns.saveContext hc cpu
        obtain ⟨s, hs⟩ := hsave.space (i := c) (by rw [hr]; simp)
        generalize saveContext k cpu = k₁ at hsave
        obtain ⟨⟨out, scan⟩, k', hrun, hscan, -, hnone⟩ :=
          (wp_syscallExecLog hsave hc hr).total (bootArena_roomy L)
        refine ⟨c, out, scan, k', hruns.current.trans hc, hrun, ?_, fun b hb => ?_,
          hscan.reads.addrs, hscan.reads.few, hsave.owns.reads_no_wrap hs hscan.reads hu,
          hscan.loads, hnone⟩
        · rw [syscallExec_eq, StateT.run_map, hrun]
          rfl
        · have hreadable := hscan.reads.readable b hb
          exact ⟨hreadable, hsave.owns.ownByte hs hreadable (hscan.reads.source b hb)⟩
  · cases hk

omit [BlockDevice σ] in
theorem byteAt_saveContext (k : Kernel σ) (cpu : Context) (i : Fin 10) (virtual : Nat) :
    byteAt (saveContext k cpu) i virtual = byteAt k i virtual := by
  cases hc : k.currentProcess with
  | none => rw [saveContext, hc]
  | some c =>
      rw [saveContext, hc]
      by_cases hi : i = c
      · subst hi
        simp only [byteAt, vmOf, setEntry_processTable]
        rfl
      · simp only [byteAt, vmOf, setEntry_of_ne hi]
        rfl

/-- The kernel finds what a process stored in its stack, and nothing else there has changed. -/
theorem Runs.exists_store {a : Tasks} {c : Fin 10} {x : Nat} (h : Runs L k a sp)
    (hc : a.current = some c) (hr : a.table c = some .ready) (hx : x < 4096) (b : UInt8)
    (cpu : Context) :
    ∃ k', step L (.user k cpu) (.store (0x7fffd000 + x) b) = some (.user k' cpu) ∧
      Runs L k' a sp ∧ byteAt k' c (0x7fffd000 + x) = b ∧
      ∀ y < 4096, y ≠ x → byteAt k' c (0x7fffd000 + y) = byteAt k c (0x7fffd000 + y) := by
  obtain ⟨s, hs⟩ := h.space (i := c) (by rw [hr]; simp)
  have hm := (spaceMap_stacks L (h.world.slot c s hs).fields.frames).1
  have hpage : (0x7fffd000 + x) / 4096 = 0x7fffd := by omega
  have hp : s.userStack ∈ s.pages := by simp [Space.pages]
  rw [← hpage] at hm
  have haddr : userAddress k (0x7fffd000 + x) = some (s.userStack + x) := by
    have hactive : activeVm k = k.processVm c := by rw [activeVm, h.ttb, hc]
    have hres := h.world.resolve hs hm hp
    rw [(h.world.focus hs).resolve hm, show (0x7fffd000 + x) % 4096 = x by omega] at hres
    rw [userAddress, hactive, (h.world.slot c s hs).walk, hm, ← hres,
      show (0x7fffd000 + x) % 4096 = x by omega]
    rfl
  have hruns := h.store hc hr haddr b
  refine ⟨_, by rw [step, haddr, Option.map_some], hruns, ?_, fun y hy hne => ?_⟩
  · rw [hruns.world.byteAt_userStack hs hx]
    exact Function.update_self _ _ _
  · rw [hruns.world.byteAt_userStack hs hy, h.world.byteAt_userStack hs hy]
    exact Function.update_of_ne (by omega) _ _

/-- A process puts a string and its NUL into its stack. -/
theorem Runs.exists_storeName {a : Tasks} {c : Fin 10} {cpu : Context} (name : List UInt8)
    {x : Nat} (h : Runs L k a sp) (hc : a.current = some c) (hr : a.table c = some .ready)
    (hx : x + name.length < 4096) (hreach : (arunos σ L).Reachable (.user k cpu)) :
    ∃ k', (arunos σ L).Reachable (.user k' cpu) ∧ Runs L k' a sp ∧
      ∀ n ≤ name.length, byteAt k' c (0x7fffd000 + (x + n)) = name.getD n 0 := by
  induction name generalizing x with
  | nil =>
      obtain ⟨k', hs, hruns, hb, -⟩ := h.exists_store hc hr hx 0 cpu
      exact ⟨k', hreach.step hs, hruns, fun n hn => by simpa [Nat.le_zero.mp hn] using hb⟩
  | cons b name ih =>
      simp only [List.length_cons] at hx ⊢
      -- the rest first, and then the byte before it
      obtain ⟨k₁, hreach₁, hruns₁, hname⟩ := ih (x := x + 1) (by omega)
      obtain ⟨k', hs, hruns, hb, hrest⟩ := hruns₁.exists_store hc hr (x := x) (by omega) b cpu
      refine ⟨k', hreach₁.step hs, hruns, fun n hn => ?_⟩
      cases n with
      | zero => exact hb
      | succ n =>
          rw [hrest _ (by omega) (by omega), List.getD_cons_succ, ← hname n (by omega),
            Nat.add_assoc x 1 n, Nat.add_comm 1 n]

/-- The shell puts `shell` at the end of its stack and passes the address. -/
theorem exec_reads_own_name_shell : ∃ (k k' : Kernel shellDisk.Reader) (cpu : Context)
      (out : Outcome) (scan : NameScan),
    (arunos shellDisk.Reader smallLayout).Reachable (.user k cpu) ∧
      (syscallExecLog smallLayout 0x7fffdffa).run (saveContext k cpu) = some ((out, scan), k') ∧
      scan.reads.length ≤ 13 ∧ scan.load = some (0, shellName) := by
  obtain ⟨k, cpu, s, hr, hs⟩ := exists_running
  obtain ⟨k₁, hr₁, hruns, hname⟩ := hs.runs.exists_storeName (c := 0) (x := 0xffa) shellName rfl rfl
    (by decide) hr
  obtain ⟨c, out, scan, k', hc, hrun, -, -, -, hfew, -, hload, -⟩ :=
    exec_reads_own_name hr₁ (show 0x7fffdffa < 2 ^ 32 by decide)
  obtain rfl : 0 = c := Option.some.inj (hruns.current.symm.trans hc)
  have hbyte : ∀ n ≤ 5, byteAt (saveContext k₁ cpu) 0 (0x7fffdffa + n) = shellName.getD n 0 :=
    fun n hn => by rw [byteAt_saveContext, ← hname n hn, ← Nat.add_assoc]
  have hat : NameAt (saveContext k₁ cpu) 0 13 0x7fffdffa shellName := by
    refine ⟨fun n hn => ?_, by decide, hbyte 5 le_rfl, by decide, fun n hn => .inr ?_⟩
    · rw [hbyte n hn.le, List.getD_eq_getElem _ _ hn, List.getElem?_eq_getElem hn]
    · have : n ≤ 5 := hn
      omega
  exact ⟨k₁, k', cpu, out, scan, hr₁, hrun, hfew, (hload 0 shellName).mpr ⟨rfl, by decide, hat⟩⟩

/-- **A failed load is atomic.**  In every reachable machine, for every process, name, volume and
disk: if `proc_load_program` returns false, every process is as it was, so are the running process
and the slots in use, and `get_free_memory_size` returns what it did before. -/
theorem failed_load_atomic {m : Machine σ} (h : (arunos σ L).Reachable m) (fat : Volume) (dev : σ)
    {proc : Option (Fin 10)}
    (hp : ∀ p, proc = some p → (m.kernel.processTable p).state ≠ .UNUSED) {name : List UInt8}
    (hrun : (procLoadProgram L proc name).run { m.kernel with fat := fat, dev := dev } =
      some (false, k')) :
    (∀ j, (m.kernel.processTable j).state ≠ .UNUSED → Unchanged m.kernel k' j) ∧
      k'.currentProcess = m.kernel.currentProcess ∧
      (∀ j, (k'.processTable j).state = .UNUSED ↔ (m.kernel.processTable j).state = .UNUSED) ∧
      ∃ n, ∀ fuel > 2 ^ 18, getFreeMemorySize m.kernel.mem fuel = some n ∧
        getFreeMemorySize k'.mem fuel = some n := by
  obtain ⟨sp, hw, hu⟩ := (Reachable.sane h).owns
  have hw₁ : World L { m.kernel with fat := fat, dev := dev } sp :=
    hw.same rfl rfl rfl rfl
  have hkept : World L k' sp ∧ Kept sp { m.kernel with fat := fat, dev := dev } k' := by
    cases proc with
    | none =>
        cases hrun
        exact ⟨hw₁, fun _ _ => rfl, fun _ _ => rfl, fun _ _ => rfl, rfl, rfl, rfl, rfl, rfl,
          .refl _ _⟩
    | some p =>
        obtain ⟨s, hs⟩ := Option.ne_none_iff_exists'.mp fun e => hp p rfl ((hu p).mpr e)
        rcases ((wp_procLoadProgram hw₁ (fun i => (hu i).mp) hs).elim hrun).1 with
          ⟨-, hw', hk⟩ | ⟨hf, -⟩
        · exact ⟨hw', hk⟩
        · cases hf
  obtain ⟨hw', hk⟩ := hkept
  refine ⟨fun j hj => ?_, hk.current, fun j => ?_, hw.freeMemory hw' hk.allTables_eq⟩
  · obtain ⟨s, hs⟩ := Option.ne_none_iff_exists'.mp fun e => hj ((hu j).mpr e)
    obtain ⟨h₁, h₂, h₃, h₄⟩ := hk.unchanged hw₁ hs
    exact ⟨h₁, h₂, h₃, h₄⟩
  · by_cases hj : sp j = none
    · exact iff_of_eq (congrArg (· = _) (hk.unused j hj))
    · exact iff_of_eq (congrArg (fun p : Process => p.state = _) (hk.table j hj))

/-- `bad` is no program: its entry point is in no segment. -/
theorem programNamed_bad : programNamed shellDisk.bytes shellVolume badName = none := by
  decide +kernel

/-- The image of `bad` gets a slot and its stacks, and then `load_elf` refuses the file. -/
theorem exists_loadElf_bad {k : Kernel shellDisk.Reader} (h : World smallLayout k sp)
    (hu : ∀ j, (k.processTable j).state = .UNUSED → sp j = none) (hfat : k.fat = shellVolume)
    (hfree : firstUnused k = some i) :
    ∃ k₁ k₂, (procCreate smallLayout).run k = some (some i, k₁) ∧
      (loadElf i ⟨88, 3⟩).run k₁ = some (false, k₂) ∧
      (k₂.processTable i).state = .CREATED ∧ 2 ≤ (processPages k₂ i).length := by
  obtain ⟨r, k₁, hcreate, ⟨-, -, hfull⟩ | ⟨j, s, rfl, hcr⟩⟩ :=
    (wp_procCreate h hu).total (bootArena_roomy smallLayout)
  · rw [hfree] at hfull
    cases hfull
  obtain rfl : i = j := Option.some.inj (hfree.symm.trans hcr.unused)
  have hfile : FileIs shellDisk.Reader k₁.fat ⟨88, 3⟩ (fileByte shellDisk.bytes shellVolume 3) := by
    rw [hcr.frame.fat, hfat]
    exact .of_fatOpen shellDisk.serves fatInit_shellDisk (fatOpen_badName ⟨⟩)
  obtain ⟨ok, k₂, hload, ⟨⟨s', hl⟩, -⟩, himage⟩ :=
    (wp_and (wp_loadElf hcr.world (Function.update_self _ _ _) hcr.frames hfile.size_lt)
      (wp_loadElf_image hcr hfile)).total (bootArena_roomy smallLayout)
  have hrefused : ok = false := by
    by_contra hok
    obtain ⟨elf, plan, hof, -⟩ := himage (Bool.eq_true_of_not_eq_false hok)
    have hprog := programOf_eq_some.mpr ⟨elf, plan.last, hof.accepted, rfl⟩
    have hnone : programOf (fileByte shellDisk.bytes shellVolume 3) 88 = none := by decide +kernel
    cases hnone.symm.trans hprog
  subst hrefused
  refine ⟨k₁, k₂, hcreate, hload, ?_, ?_⟩
  · rw [hl.state, hcr.process]
    rfl
  · rw [← Multiset.coe_card, hl.world.processPages (Function.update_self _ _ _), Space.pages]
    simp

omit [BlockDevice σ] in
theorem firstUnused_one (h₀ : (k.processTable 0).state ≠ .UNUSED)
    (h₁ : (k.processTable 1).state = .UNUSED) : firstUnused k = some 1 := by
  cases hf : firstUnused k with
  | none => exact absurd h₁ (firstUnused_none hf 1)
  | some i =>
      have hi : i ≠ 0 := fun he => h₀ (he ▸ firstUnused_some hf)
      have hle : ¬(1 : Fin 10) < i := fun hlt => firstUnused_before hf hlt h₁
      congr 1
      omega

/-- The shell asks for `bad`: a slot is taken for the image, `load_elf` refuses the file, and the
slot and its pages are given back. -/
theorem failed_load_atomic_bad : ∃ (k k₁ k₂ k' : Kernel shellDisk.Reader) (cpu : Context),
    (arunos shellDisk.Reader smallLayout).Reachable (.user k cpu) ∧
      (fatOpen shellVolume (some badName) k.dev).1 = some ⟨88, 3⟩ ∧
      (procCreate smallLayout).run { k with fat := shellVolume } = some (some 1, k₁) ∧
      (loadElf 1 ⟨88, 3⟩).run k₁ = some (false, k₂) ∧
      (k₂.processTable 1).state = .CREATED ∧ 2 ≤ (processPages k₂ 1).length ∧
      (procLoadProgram smallLayout (some 0) badName).run { k with fat := shellVolume } =
        some (false, k') ∧
      Unchanged k k' 0 ∧ (k'.processTable 1).state = .UNUSED ∧
      ∃ n, ∀ fuel > 2 ^ 18, getFreeMemorySize k.mem fuel = some n ∧
        getFreeMemorySize k'.mem fuel = some n := by
  obtain ⟨k, cpu, s, hr, hs⟩ := exists_running
  have hready : (k.processTable 0).state = .READY := (hs.runs.view 0).ready_iff.mpr rfl
  have hlive : (k.processTable 0).state ≠ .UNUSED := by rw [hready]; decide
  have hfree : (k.processTable 1).state = .UNUSED := hs.runs.view 1
  have hw : World smallLayout { k with fat := shellVolume } _ :=
    hs.runs.world.same rfl rfl rfl rfl
  obtain ⟨k₁, k₂, hcreate, hload, hstate, hpages⟩ :=
    exists_loadElf_bad hw hs.runs.unused rfl (firstUnused_one hlive hfree)
  obtain ⟨ok, k', hrun, ⟨rfl, -⟩ | ⟨-, -, prog, -, hprog, -⟩⟩ :=
    (wp_loadProgram badName hw hs.runs.unused (Function.update_self _ _ _)
      (shellDisk.serves.provides fatInit_shellDisk)).total (bootArena_roomy smallLayout)
  · obtain ⟨hkept, -, hsame, hmem⟩ := failed_load_atomic hr shellVolume k.dev
      (fun p hp => by cases hp; exact hlive) hrun
    exact ⟨k, k₁, k₂, k', cpu, hr, fatOpen_badName _, hcreate, hload, hstate, hpages, hrun,
      hkept 0 hlive, (hsame 1).mpr hfree, hmem⟩
  · rw [programNamed_bad] at hprog
    cases hprog

/-- **Allocation never fails.**  With a kernel image below 16 MiB `c_entry` does not fault, and in
every reachable machine no trap of a running program faults; a heap is at most 1 MiB of whole
pages; and of the pages ever split there are no more than the most page tables there ever were,
four to a page. -/
theorem allocation_never_fails (hL : L.kernelEnd < 0x81000000) :
    (∀ ram (dev : σ), ∃ out k, (cEntry L).run (Kernel.initial ram dev) = some (out, k)) ∧
    ∀ m, (arunos σ L).Reachable m →
      (∀ k cpu, m = .user k cpu → ∀ t, ∃ m', step L m (.trap t) = some m') ∧
      (∀ i, (m.kernel.processTable i).state ≠ .UNUSED →
        (m.kernel.processTable i).heapSize % 4096 = 0 ∧
        (m.kernel.processTable i).heapSize ≤ 0x100000) ∧
      m.kernel.mem.chunksOut = (livePageTables m.kernel).card ∧
      m.kernel.mem.chunksOut ≤ m.kernel.mem.peakChunks ∧
      4 * m.kernel.mem.splits ≤ m.kernel.mem.peakChunks + 3 := by
  refine ⟨fun ram dev => ?_, fun m h => ?_⟩
  · obtain ⟨out, k, hrun, -⟩ := wp.total (wp_cEntry (L := L) ram dev) (by omega)
    exact ⟨out, k, hrun⟩
  have hsane := Reachable.sane h
  obtain ⟨sp, hsp⟩ := hsane.owns
  refine ⟨?_, fun i hi => ?_, ?_, hsp.1.pool.out_le, hsp.1.pool.peak⟩
  · rintro k cpu rfl t
    rcases hsane with ⟨a, sp, hin, -⟩ | ⟨k, hk, -⟩
    · cases hin with
      | user c hruns hc hr => exact exists_step_trap hruns hc hr cpu t
    · cases hk
  · obtain ⟨s, hs⟩ := Option.ne_none_iff_exists'.mp fun e => hi ((hsp.2 i).mpr e)
    have hd := (hsp.1.slot i s hs).fields
    have := hd.frames
    rw [hd.heapSize]
    omega
  · obtain ⟨l4, l1, hc⟩ := hsp.1.pool.core
    rw [hc.out, hsp.livePageTables]

/-- The layout of `smallLayout` is below 16 MiB, and every trap of the shell is served. -/
theorem allocation_never_fails_shell : ∃ (k : Kernel shellDisk.Reader) (cpu : Context),
    (arunos shellDisk.Reader smallLayout).Reachable (.user k cpu) ∧
      ∀ t, ∃ m', step smallLayout (.user k cpu) (.trap t) = some m' := by
  have hL : smallLayout.kernelEnd < 0x81000000 := by decide
  obtain ⟨k, cpu, s, hr, -⟩ := exists_running
  exact ⟨k, cpu, hr, ((allocation_never_fails hL).2 _ hr).1 k cpu rfl⟩

end Arunos
