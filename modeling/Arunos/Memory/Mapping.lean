import Arunos.Memory.Contract
import Arunos.Memory.Space

/-!
# Memory — Mapping — page tables built by `map_pages` realise their mappings

A list of mappings is applied to an empty section table, with `kalloc1k` taking the page tables from
any accounts.  The walk through the result has, at each page, the last mapping that covers it
(`lastCovering`), and nothing where none does.  A mapping may run over the top of either address
space, where addresses go on from 0.

`setup_kernel_vm` is the case of the kernel's own list.  Its last entry makes every block of the
allocator resolve to its physical address.
-/

namespace Arunos

variable {S : PageSet} {m : Mem} {P U : Multiset Nat} {l4 l1 : List Nat}

/-! ### Tables from the accounts -/

/-- The tables of an allocator, beside the pages `P` and the chunks `U` of others.  There are enough
for every section if there are 4096 chunks more. -/
theorem accountsSource (S : PageSet) (P U : Multiset Nat) :
    TableSource (fun m T => ∃ l4 l1, Accounts S m P (T + U) l4 l1) (held P U) 4096
      (4 * S.pages.card < 4 * P.card + U.card + 4096) where
  nodup h := by
    obtain ⟨l4, l1, h⟩ := h
    rw [← held_tables]
    exact h.held_nodup
  write h hc hr := by
    obtain ⟨l4, l1, h⟩ := h
    refine ⟨l4, l1, h.write fun a _ ha => hr a ?_⟩
    rintro rfl
    rw [held_tables] at ha
    exact ha (Multiset.mem_add.mpr (.inl hc))
  fresh h hT := by
    obtain ⟨l4, l1, h⟩ := h
    refine wp_seq h.wp_kalloc1k ?_
    rintro c m' (⟨rfl, rfl, rfl, -⟩ | ⟨l, l', -, hc₀, hl, hs, -⟩)
    · have := h.card_eq
      rw [Multiset.card_add] at this
      simp only [List.length_nil] at this
      rw [if_pos rfl]
      exact wp_fault (by omega)
    · rw [if_neg hc₀]
      have hc := hl.held_sub (Multiset.mem_add.mpr (.inr (Multiset.mem_cons_self c _)))
      rw [← Multiset.cons_add] at hl
      rw [held_tables] at hs
      exact wp_pure ⟨PageSet.chunk_aligned hc, PageSet.chunk_lt hc, ⟨l, l', hl⟩, hs⟩

/-! ### The last mapping of a page -/

/-- The mapping a page has: the last one of the list that covers it. -/
def lastCovering (mappings : List MemoryMapping) (page : Nat) : Option MemoryMapping :=
  (mappings.filter fun mapping => mapping.Covers page).getLast?

theorem foldl_wrapped (mappings : List MemoryMapping) (D : Nat → Option PageTableEntry)
    (page : Nat) :
    mappings.foldl (fun D mapping => mapping.wrapped mapping.count D) D page =
      (lastCovering mappings page).elim (D page) fun mapping => some (mapping.entry page) :=
  foldl_overlay MemoryMapping.Covers (fun mapping page => some (mapping.entry page)) mappings D page

namespace MemoryMapping

/-- A mapping with 32-bit fields that runs forward between addresses with the same offset in their
pages, over less than 4 GiB when it is rounded to whole pages. -/
structure Proper (mapping : MemoryMapping) : Prop where
  virtual : mapping.virtualAddress < 2 ^ 32
  physical : mapping.physicalEnd < 2 ^ 32
  offsets : mapping.virtualAddress % 4096 = mapping.physicalStart % 4096
  forward : mapping.physicalStart ≤ mapping.physicalEnd
  span : mapping.count * 4096 < 2 ^ 32

theorem Proper.wraps {mapping : MemoryMapping} (h : mapping.Proper) :
    mapping.Wraps (Finset.range 4096) := by
  obtain ⟨hv, hp, -, hfw, hspan⟩ := h
  exact ⟨by omega, hp, by omega, by omega, fun i _ => Finset.mem_range.mpr (by omega)⟩

/-- The address a covered page's entry stands for. -/
theorem Proper.entry_resolves {mapping : MemoryMapping} (h : mapping.Proper) {v : Nat}
    (hv : v < 2 ^ 32) :
    (mapping.entry (v / 4096)).baseAddress * 4096 + v % 4096 =
      u32 (mapping.physicalStart + v + 2 ^ 32 - mapping.virtualAddress) := by
  obtain ⟨hva, hp, hoff, hfw, -⟩ := h
  simp only [entry, pageEntry, offset, u32]
  omega

end MemoryMapping

/-! ### Translation -/

/-- The walk through `vm` takes `v` where `mapping` puts it, with the mapping's permissions. -/
structure Translates (r : Bytes) (vm : SectionTable) (mapping : MemoryMapping) (v : Nat) :
    Prop where
  sectionType : (vm (v / 2 ^ 20)).descType = SECTION_DESC
  page : ∃ e, descriptor r vm (v / 4096) = some e ∧ e.descType = PAGE_DESC ∧
    e.accessPermissions = mapping.accessPermissions % 2 ^ 8
  resolve : resolvePhysicalAddress r vm v =
    u32 (mapping.physicalStart + v + 2 ^ 32 - mapping.virtualAddress)

/-- The mappings applied to an empty table, with the page tables of any accounts. -/
theorem wp_mapEmpty (h : Accounts S m P U l4 l1) {mappings : List MemoryMapping}
    (hproper : ∀ mapping ∈ mappings, mapping.Proper) :
    wp (4 * l4.length + l1.length < 4096) (mappings.foldlM mapPages SectionTable.zero) m
      fun vm m' => Adds SectionTable.zero vm ∧ descriptor m'.ram vm = mappings.foldl
        (fun D mapping => mapping.wrapped mapping.count D) fun _ => none := by
  have hzero : Realises (fun m T => ∃ l4 l1, Accounts S m P (T + U) l4 l1) (Finset.range 4096)
      SectionTable.zero (fun _ => none) m := by
    refine ⟨⟨l4, l1, ?_⟩, ?_, descriptor_zero _⟩
    · rwa [tables_zero, zero_add]
    · rw [sections_zero]
      exact Finset.empty_subset _
  have hrun := (accountsSource S P U).wp_mapAll subset_rfl (Finset.card_range 4096).le
    (fun mapping hmem => (hproper mapping hmem).wraps) hzero
  have hcard := h.card_eq
  refine wp_mono (wp_weaken hrun fun hfew => by omega) ?_
  rintro vm m' ⟨hw, -, hadd⟩
  exact ⟨hadd, hw.walk⟩

/-- The walk of a table with the mappings in it, at the address `v`. -/
theorem translates_of_walk {r : Bytes} {vm : SectionTable} {mappings : List MemoryMapping} {v : Nat}
    (hadd : Adds SectionTable.zero vm) (hv : v < 2 ^ 32)
    (hproper : ∀ mapping ∈ mappings, mapping.Proper)
    (hwalk : descriptor r vm = mappings.foldl
      (fun D mapping => mapping.wrapped mapping.count D) fun _ => none) :
    match lastCovering mappings (v / 4096) with
    | some mapping => Translates r vm mapping v
    | none => descriptor r vm (v / 4096) = none := by
  have hd := (congrFun hwalk (v / 4096)).trans (foldl_wrapped mappings _ (v / 4096))
  cases hlast : lastCovering mappings (v / 4096) with
  | none =>
      rw [hlast] at hd
      exact hd
  | some mapping =>
      rw [hlast] at hd
      have hmem : mapping ∈ mappings := (List.mem_filter.mp (List.mem_of_getLast? hlast)).1
      have hne : descriptor r vm (v / 4096) ≠ none := by
        rw [hd]
        exact Option.some_ne_none _
      have hsec := (mem_sections.mp (section_of_descriptor hne)).2
      rw [show v / 4096 / 256 = v / 2 ^ 20 by omega] at hsec
      refine ⟨(hadd _).resolve_left hsec, ⟨_, hd, rfl, rfl⟩, ?_⟩
      rw [(resolvePhysicalAddress_eq hd).1, (hproper mapping hmem).entry_resolves hv]

/-- The entry of a section in a table on a 16K boundary, addressed with `|`. -/
theorem section_address {base v : Nat} (hbase : base % 16384 = 0) (hv : v < 2 ^ 32) :
    base ||| ((v >>> 20) <<< 2) = base + 4 * (v / 2 ^ 20) := by
  rw [Nat.shiftRight_eq_div_pow, Nat.shiftLeft_eq,
    show base = (base / 2 ^ 14) <<< 14 by rw [Nat.shiftLeft_eq]; omega,
    shiftLeft_or_of_lt (by omega), Nat.shiftLeft_eq]
  omega

/-! ### The kernel's list -/

theorem proper_mk {v p e ap : Nat} (hv : v < 2 ^ 32) (he : e < 2 ^ 32) (hoff : v % 4096 = p % 4096)
    (hfw : p ≤ e) (hspan : ((e + 4095) / 4096 - p / 4096) * 4096 < 2 ^ 32) :
    (MemoryMapping.mk v p e ap).Proper := ⟨hv, he, hoff, hfw, hspan⟩

theorem kernelMappings_proper (L : Layout) : ∀ mapping ∈ kernelMappings L, mapping.Proper := by
  have h₁ := L.base_le
  have h₂ := L.fits
  refine forall_kernelMappings ?_ ?_ ?_ ?_ ?_ ?_
  · rw [v2p_eq h₁ (by omega)]
    exact proper_mk (by omega) (by omega) (by omega) (by omega) (by omega)
  · exact proper_mk (by omega) (by omega) (by omega) (by omega) (by omega)
  · exact proper_mk (by omega) (by omega) (by omega) (by omega) (by omega)
  · exact proper_mk (by omega) (by omega) (by omega) (by omega) (by omega)
  · exact proper_mk (by omega) (by omega) (by omega) (by omega) (by omega)
  · rw [Layout.allocatableStart, v2p_eq (by omega) (by omega)]
    exact proper_mk (by omega) (by omega) (by omega) (by omega) (by omega)

/-- The blocks of the allocator are covered by the last mapping of the list. -/
theorem lastCovering_kernel {L : Layout} {page : Nat} (hlo : L.allocatableStart / 4096 ≤ page)
    (hhi : page < 0x90000) : lastCovering (kernelMappings L) page =
      some ⟨L.allocatableStart, v2p L.allocatableStart, 0x10000000, AP_RW_D⟩ := by
  have h₁ := L.base_le
  have h₂ := L.fits
  have hcov : (MemoryMapping.mk L.allocatableStart (v2p L.allocatableStart) 0x10000000
      AP_RW_D).Covers page := by
    rw [Layout.allocatableStart] at hlo ⊢
    rw [v2p_eq (by omega) (by omega)]
    simp only [MemoryMapping.Covers, MemoryMapping.offset, MemoryMapping.count]
    omega
  have hlist : kernelMappings L = (kernelMappings L).dropLast ++
      [⟨L.allocatableStart, v2p L.allocatableStart, 0x10000000, AP_RW_D⟩] := rfl
  rw [lastCovering, hlist, List.filter_append, List.filter_cons_of_pos (by simpa using hcov)]
  simp

/-- What `kalloc` and `kalloc1k` return lies in the pages they were given. -/
theorem Accounts.block_page (h : Accounts S m P U l4 l1) {p : Nat} {m' : Mem}
    (hrun : kalloc.run m = some (p, m') ∨ kalloc1k.run m = some (p, m')) (hp : p ≠ NULL) :
    p / 4096 * 4096 ∈ S.pages := by
  have hmem : p ∈ S.chunks := by
    rcases hrun with hrun | hrun
    · obtain ⟨-, rfl, -⟩ | ⟨l, rfl, -⟩ := (h.wp_kalloc (F := True)).elim hrun
      · exact absurd rfl hp
      · exact h.node_sub (.inl List.mem_cons_self)
    · obtain ⟨-, -, rfl, -⟩ | ⟨l, l', -, -, hl, -⟩ := (h.wp_kalloc1k (F := True)).elim hrun
      · exact absurd rfl hp
      · exact hl.held_sub (Multiset.mem_add.mpr (.inr (Multiset.mem_cons_self p _)))
  exact (PageSet.mem_chunks.mp hmem).2

/-- **Page tables realise the mappings.**  Any list of proper mappings is applied to an empty
section table; on a 16K boundary the table's entries are where the resolving code looks for them.
If the allocator has a chunk for each section, `map_pages` returns for each of them.  Then every
address whose page some mapping covers is translated as the last such mapping says, and every other
page has no valid descriptor.  After `setup_kernel_vm`, every block `kalloc` and `kalloc1k` return
from the memory given to them at boot resolves to its `V2P`. -/
theorem mappings_realised (h : Accounts S m P U l4 l1) :
    (∀ base v, base % 16384 = 0 → v < 2 ^ 32 →
      base ||| ((v >>> 20) <<< 2) = base + 4 * (v / 2 ^ 20)) ∧
    (∀ mappings : List MemoryMapping, (∀ mapping ∈ mappings, mapping.Proper) →
      (4096 ≤ 4 * l4.length + l1.length →
        ∃ vm m', (mappings.foldlM mapPages SectionTable.zero).run m = some (vm, m')) ∧
      ∀ vm m', (mappings.foldlM mapPages SectionTable.zero).run m = some (vm, m') →
        ∀ v < 2 ^ 32, match lastCovering mappings (v / 4096) with
          | some mapping => Translates m'.ram vm mapping v
          | none => descriptor m'.ram vm (v / 4096) = none) ∧
    ∀ (L : Layout) (vm : SectionTable) (m' : Mem), (setupKernelVm L).run m = some (vm, m') →
      ∀ (S₂ : PageSet) (m₂ : Mem) (P₂ T₂ : Multiset Nat) (k4 k1 : List Nat),
        Accounts S₂ m₂ P₂ T₂ k4 k1 →
        (∀ p ∈ S₂.pages, p ∈ pageRange L.allocatableStart 0x90000000) →
        ∀ p m₃, kalloc.run m₂ = some (p, m₃) ∨ kalloc1k.run m₂ = some (p, m₃) → p ≠ NULL →
          resolvePhysicalAddress m'.ram vm p = v2p p := by
  refine ⟨fun base v => section_address, fun mappings hproper => ⟨fun henough => ?_, ?_⟩, ?_⟩
  · obtain ⟨vm, m', hrun, -⟩ := (wp_mapEmpty h hproper).total (by omega)
    exact ⟨vm, m', hrun⟩
  · intro vm m' hrun v hv
    obtain ⟨hadd, hwalk⟩ := (wp_mapEmpty h hproper).elim hrun
    exact translates_of_walk hadd hv hproper hwalk
  · intro L vm m' hrun S₂ m₂ P₂ T₂ k4 k1 h₂ hpages p m₃ hblock hp
    obtain ⟨hal, hlo, hhi⟩ := mem_pageRange.mp (hpages _ (h₂.block_page hblock hp))
    have h₁ := L.base_le
    rw [Layout.allocatableStart] at hlo
    obtain ⟨hadd, hwalk⟩ := (wp_mapEmpty h (kernelMappings_proper L)).elim hrun
    have htrans := translates_of_walk (v := p) hadd (by omega) (kernelMappings_proper L) hwalk
    rw [lastCovering_kernel (by rw [Layout.allocatableStart]; omega) (by omega)] at htrans
    have hres : resolvePhysicalAddress m'.ram vm p =
        u32 (v2p L.allocatableStart + p + 2 ^ 32 - L.allocatableStart) := htrans.resolve
    rw [hres, Layout.allocatableStart, v2p_eq (by omega) (by omega), v2p_eq (by omega) (by omega),
      u32]
    omega

/-- The pages of the first 4 MiB of the kernel's memory. -/
def fourMegabytes : PageSet where
  pages := (pageRange 0x80000000 0x80400000 : List Nat)
  nodup := pageRange_nodup _ _
  aligned _ hp := (mem_pageRange.mp hp).1
  pos _ hp := Nat.lt_of_lt_of_le (by decide) (mem_pageRange.mp hp).2.1
  below _ hp := (mem_pageRange.mp hp).2.2.trans (by decide)

/-- Two pages at the top of memory: the second one is page 0. -/
theorem mappings_realised_top :
    ∃ m l4 l1, Accounts fourMegabytes m 0 0 l4 l1 ∧ ∃ vm m',
      ([⟨0xfffff000, 0x5000, 0x7000, AP_RW_RW⟩].foldlM mapPages SectionTable.zero).run m =
        some (vm, m') ∧
      resolvePhysicalAddress m'.ram vm 0xfffff123 = 0x5123 ∧
      resolvePhysicalAddress m'.ram vm 0x123 = 0x6123 ∧
      descriptor m'.ram vm 1 = none := by
  have hempty : Accounts .empty ⟨fun _ => 0, NULL, NULL, 0, 0, 0⟩ 0 0 [] [] :=
    ⟨rfl, rfl, by simp [held, PageSet.chunks, PageSet.empty], by simp, by simp⟩
  obtain ⟨-, m, -, ⟨l4, hacc⟩, -⟩ := (hempty.wp_kallocInit (F := False) fourMegabytes
    (zero_add _).symm (.inl (by decide)) (by decide) (by decide) (by decide)).total id
  have henough : 4096 ≤ 4 * l4.length + ([] : List Nat).length := by
    have hcard : fourMegabytes.pages.card = 1024 := length_pageRange _ _
    have := hacc.card_eq
    rw [hcard] at this
    simpa using this.ge
  obtain ⟨htotal, htrans⟩ := (mappings_realised hacc).2.1
    [⟨0xfffff000, 0x5000, 0x7000, AP_RW_RW⟩] (by
      simp only [List.forall_mem_singleton]
      exact proper_mk (by decide) (by decide) (by decide) (by decide) (by decide))
  obtain ⟨vm, m', hrun⟩ := htotal henough
  have htop := htrans vm m' hrun 0xfffff123 (by decide)
  have hzero := htrans vm m' hrun 0x123 (by decide)
  have hnone := htrans vm m' hrun 0x1000 (by decide)
  exact ⟨m, l4, [], hacc, vm, m', hrun, htop.resolve, hzero.resolve, hnone⟩

end Arunos
