import Arunos.Memory.Kalloc

/-!
# Memory — Vm — the two-level page tables of `kernel/memory/vm.c`

A section table has 4096 entries, one for each megabyte; a used entry points to a 1K page table of
256 words, one for each 4K page.  The section tables are the static arrays `kernel_vm` and
`process_vm`, and a function that fills one takes it and returns it.  The page tables are chunks
of `kalloc1k`, so they are words of the memory.

`descriptor` is the walk the hardware does: the valid page descriptor of a virtual page, or none.
-/

namespace Arunos

/-- `P2V`. -/
def p2v (x : Nat) : Nat := u32 (x + 0x80000000)

/-- `V2P`. -/
def v2p (x : Nat) : Nat := u32 (x + 2 ^ 32 - 0x80000000)

theorem v2p_eq {x : Nat} (h : 0x80000000 ≤ x) (h' : x < 2 ^ 32) : v2p x = x - 0x80000000 := by
  rw [v2p, u32]
  omega

theorem p2v_v2p {p : Nat} (h₁ : 0x80000000 ≤ p) (h₂ : p < 2 ^ 32) : p2v (v2p p) = p := by
  rw [v2p_eq h₁ h₂, p2v, u32]
  omega

/-! ### Table entries -/

/-- `struct SectionTableEntry`. -/
structure SectionTableEntry where
  descType : Nat
  domain : Nat
  baseAddress : Nat
deriving DecidableEq

/-- A section table; indices are below 4096. -/
abbrev SectionTable := Nat → SectionTableEntry

/-- A section table after `memset(vm, 0, SECTION_TABLE_SIZE)`. -/
def SectionTable.zero : SectionTable := fun _ => ⟨0, 0, 0⟩

/-- `P2V(BASE_TO_PAGE_TABLE(entry.base_address))`. -/
def SectionTableEntry.pageTable (e : SectionTableEntry) : Nat := p2v (u32 (e.baseAddress * 2 ^ 10))

/-- `struct PageTableEntry`. -/
structure PageTableEntry where
  descType : Nat
  bufferable : Nat
  cacheable : Nat
  accessPermissions : Nat
  baseAddress : Nat
deriving DecidableEq

namespace PageTableEntry

/-- The word with the entry's bit fields. -/
def word (e : PageTableEntry) : Nat :=
  e.descType % 2 ^ 2 + e.bufferable % 2 * 2 ^ 2 + e.cacheable % 2 * 2 ^ 3 +
    e.accessPermissions % 2 ^ 8 * 2 ^ 4 + e.baseAddress % 2 ^ 20 * 2 ^ 12

/-- The bit fields of a word. -/
def ofWord (w : Nat) : PageTableEntry :=
  ⟨w % 2 ^ 2, w / 2 ^ 2 % 2, w / 2 ^ 3 % 2, w / 2 ^ 4 % 2 ^ 8, w / 2 ^ 12 % 2 ^ 20⟩

theorem word_lt (e : PageTableEntry) : e.word < 2 ^ 32 := by
  unfold word
  omega

theorem ofWord_word {e : PageTableEntry} (h₁ : e.descType < 2 ^ 2) (h₂ : e.bufferable < 2)
    (h₃ : e.cacheable < 2) (h₄ : e.accessPermissions < 2 ^ 8) (h₅ : e.baseAddress < 2 ^ 20) :
    ofWord e.word = e := by
  obtain ⟨d, b, c, p, a⟩ := e
  simp only [ofWord, word, mk.injEq] at *
  omega

end PageTableEntry

/-- `SECTION_DESC`. -/
def SECTION_DESC : Nat := 1

/-- `PAGE_DESC`. -/
def PAGE_DESC : Nat := 2

/-- `AP_RW_D`: the kernel's own pages. -/
def AP_RW_D : Nat := 0x55

/-- `AP_RW_R`: the user may read. -/
def AP_RW_R : Nat := 0xaa

/-- `AP_RW_RW`: the user may read and write. -/
def AP_RW_RW : Nat := 0xff

/-! ### Mapping pages -/

/-- The first half of `map_page`: the page table of a section, a new one where there is none. -/
def sectionPageTable (vm : SectionTable) (sectionIndex : Nat) : MemM (SectionTable × Nat) := do
  if (vm sectionIndex).descType = 0 then
    let pageTable ← nonNull kalloc1k
    onRam (memset · pageTable 0 1024)
    return (Function.update vm sectionIndex ⟨SECTION_DESC, 0, v2p pageTable / 2 ^ 10⟩, pageTable)
  else
    return (vm, (vm sectionIndex).pageTable)

/-- `map_page`. -/
def mapPage (vm : SectionTable) (physical virtualAddr accessPermissions : Nat) :
    MemM SectionTable := do
  let pageIndex := virtualAddr / 2 ^ 12 % 256
  let (vm, pageTable) ← sectionPageTable vm (virtualAddr / 2 ^ 20)
  -- the five assignments cover every bit of the entry
  let entry : PageTableEntry := ⟨PAGE_DESC, 0, 0, accessPermissions, physical / 2 ^ 12⟩
  onRam (store32 · (pageTable + 4 * pageIndex) entry.word)
  return vm

/-- `struct MemoryMapping`. -/
structure MemoryMapping where
  virtualAddress : Nat
  physicalStart : Nat
  physicalEnd : Nat
  accessPermissions : Nat

/-- `map_pages`. -/
def mapPages (vm : SectionTable) (mapping : MemoryMapping) : MemM SectionTable :=
  let virtualStart := roundDown mapping.virtualAddress 4096
  let physicalStart := roundDown mapping.physicalStart 4096
  let physicalEnd := roundUp mapping.physicalEnd 4096
  loop (pageCount physicalStart physicalEnd) (fun i vm =>
    mapPage vm (u32 (physicalStart + i * 4096)) (u32 (virtualStart + i * 4096))
      mapping.accessPermissions) vm

/-- The linker symbol `kernel_end`.  The kernel's image and the 2 MiB after it lie in the memory
that is mapped when `c_entry` is entered. -/
structure Layout where
  kernelEnd : Nat
  base_le : 0x80000000 ≤ kernelEnd
  fits : kernelEnd + 0x200000 ≤ 0x80000000 + 0x2000000

/-- `ALLOCATABLE_MEMORY_START`. -/
def Layout.allocatableStart (L : Layout) : Nat := L.kernelEnd + 0x200000

/-- `kernel_mappings`. -/
def kernelMappings (L : Layout) : List MemoryMapping :=
  [⟨0x80000000, 0, v2p L.kernelEnd, AP_RW_D⟩,
   ⟨0xC0000000, 0x10000000, 0x10400000, AP_RW_D⟩,
   ⟨0xd0000000, 0x42000000, 0x42010000, AP_RW_D⟩,
   ⟨0xd0010000, 0x43001000, 0x43002000, AP_RW_D⟩,
   ⟨0xffff0000, 0, 0x1000, AP_RW_D⟩,
   ⟨L.allocatableStart, v2p L.allocatableStart, 0x10000000, AP_RW_D⟩]

/-- `setup_kernel_vm`: the table is cleared, then filled. -/
def setupKernelVm (L : Layout) : MemM SectionTable :=
  (kernelMappings L).foldlM mapPages SectionTable.zero

/-! ### Unmapping, freeing, resolving -/

/-- `free_vm_page_tables`. -/
def freeVmPageTables (vm : SectionTable) : MemM Unit :=
  loop 4096 (fun i _ => do
    if (vm i).descType ≠ 0 then kfree1k (vm i).pageTable) ()

/-- `unmap_page`: the descriptor type is cleared. -/
def unmapPage (vm : SectionTable) (virtualAddr : Nat) : MemM Unit :=
  let pageTable := (vm (virtualAddr / 2 ^ 20)).pageTable
  let slot := pageTable + 4 * (virtualAddr / 2 ^ 12 % 256)
  onRam fun r => store32 r slot (le32 r slot / 4 * 4)

/-- `resolve_physical_address`. -/
def resolvePhysicalAddress (ram : Bytes) (vm : SectionTable) (virtual : Nat) : Nat :=
  let baseAddress := u32 ((vm (virtual >>> 20)).baseAddress <<< 10)
  let page := p2v (baseAddress ||| ((virtual >>> 10) &&& 0x3fc))
  u32 ((PageTableEntry.ofWord (le32 ram page)).baseAddress <<< 12) ||| (virtual &&& 0xfff)

/-- The page descriptor the hardware finds for a virtual page, when it is valid. -/
def descriptor (ram : Bytes) (vm : SectionTable) (page : Nat) : Option PageTableEntry :=
  let entry := PageTableEntry.ofWord (le32 ram ((vm (page / 256)).pageTable + 4 * (page % 256)))
  if page < 2 ^ 20 ∧ (vm (page / 256)).descType ≠ 0 ∧ entry.descType ≠ 0 then some entry else none

end Arunos
