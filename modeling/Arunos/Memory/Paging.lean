import Arunos.Memory.Pool
import Arunos.Memory.Vm
import Mathlib.Data.Finset.Union
import Mathlib.Order.Interval.Finset.Nat

/-!
# Memory — Paging — what the page-table functions do to the walk

A section table with its page tables is seen through two values: the multiset `tables vm` of the
page tables it points to, and the function `descriptor ram vm` from virtual pages to valid
descriptors.  Mapping needs little of the allocator (`TableSource`), and `TableSource.wp_mapPages`
says from that what it does, also to a mapping that runs over the top of memory.  The other results
are stated in a memory whose holders have the tables of `vm` and other tables `U`:

- `wp_mapPages`, `wp_mapAll`: the walk changes at the mapped pages alone;
- `wp_unmapPage`: the walk loses one page;
- `wp_freeVmPageTables`: the tables go back to the allocator.

Each keeps the bytes of the held pages and of the other tables, so the walks through other section
tables stay as they are (`descriptor_congr`).
-/

namespace Arunos

variable {A : Arena} {m : Mem} {P U : Multiset Nat} {vm : SectionTable} {F : Prop}

/-! ### The tables of a section table -/

/-- The used sections. -/
def sections (vm : SectionTable) : Finset Nat :=
  (Finset.range 4096).filter fun j => (vm j).descType ≠ 0

/-- The page tables of the used sections. -/
def tables (vm : SectionTable) : Multiset Nat := (sections vm).val.map fun j => (vm j).pageTable

theorem mem_sections {j : Nat} : j ∈ sections vm ↔ j < 4096 ∧ (vm j).descType ≠ 0 := by
  simp [sections]

theorem mem_tables {t : Nat} : t ∈ tables vm ↔ ∃ j ∈ sections vm, (vm j).pageTable = t := by
  simp [tables]

theorem pageTable_mem {j : Nat} (hj : j ∈ sections vm) : (vm j).pageTable ∈ tables vm :=
  mem_tables.mpr ⟨j, hj, rfl⟩

@[simp] theorem sections_zero : sections SectionTable.zero = ∅ := by
  simp [sections, SectionTable.zero]

@[simp] theorem tables_zero : tables SectionTable.zero = 0 := by simp [tables]

theorem card_tables (vm : SectionTable) : (tables vm).card = (sections vm).card := by
  simp [tables]

/-- Two sections do not share a table. -/
theorem pageTable_inj (h : (tables vm).Nodup) {i j : Nat} (hi : i ∈ sections vm)
    (hj : j ∈ sections vm) (e : (vm i).pageTable = (vm j).pageTable) : i = j :=
  Multiset.inj_on_of_nodup_map h i hi j hj e

/-- The table entry of a section that is put to use. -/
theorem tables_update {j : Nat} {e : SectionTableEntry} (hj : j < 4096)
    (hfree : (vm j).descType = 0) (he : e.descType ≠ 0) :
    sections (Function.update vm j e) = insert j (sections vm) ∧
    tables (Function.update vm j e) = e.pageTable ::ₘ tables vm := by
  have hnot : j ∉ sections vm := fun h => (mem_sections.mp h).2 hfree
  have hsec : sections (Function.update vm j e) = insert j (sections vm) := by
    ext i
    rw [Finset.mem_insert, mem_sections, mem_sections]
    by_cases h : i = j
    · subst h
      simp [hj, he]
    · simp [h]
  refine ⟨hsec, ?_⟩
  rw [tables, hsec, Finset.insert_val_of_notMem hnot, Multiset.map_cons, Function.update_self]
  refine congrArg _ (Multiset.map_congr rfl fun i hi => ?_)
  rw [Function.update_of_ne]
  rintro rfl
  exact hnot hi

/-- A table's address goes into a section entry and comes back. -/
theorem pageTable_of_chunk {c d k : Nat} (hal : c % 1024 = 0) (hlt : c < 2 ^ 32) :
    (SectionTableEntry.mk d k (v2p c / 2 ^ 10)).pageTable = c := by
  simp only [SectionTableEntry.pageTable, v2p, p2v, u32]
  omega

theorem pageTable_aligned (e : SectionTableEntry) : e.pageTable % 1024 = 0 := by
  simp only [SectionTableEntry.pageTable, p2v, u32]
  omega

/-! ### The walk -/

/-- The entry at a page's place, when it is valid. -/
def decode (e : PageTableEntry) : Option PageTableEntry := if e.descType ≠ 0 then some e else none

/-- In a used section the walk reads one word, in the section's page table. -/
theorem descriptor_used {r : Bytes} {page : Nat} (hu : page / 256 ∈ sections vm) :
    descriptor r vm page =
      decode (.ofWord (le32 r ((vm (page / 256)).pageTable + 4 * (page % 256)))) := by
  obtain ⟨hp, hd⟩ := mem_sections.mp hu
  unfold descriptor decode
  simp only [ne_eq, hd, not_false_eq_true, true_and, show page < 2 ^ 20 by omega]

/-- In an unused section there is nothing. -/
theorem descriptor_unused {r : Bytes} {page : Nat} (hu : page / 256 ∉ sections vm) :
    descriptor r vm page = none := by
  refine if_neg fun h => hu (mem_sections.mpr ⟨?_, h.2.1⟩)
  have := h.1
  omega

theorem descriptor_zero (r : Bytes) : descriptor r SectionTable.zero = fun _ => none := by
  funext page
  refine descriptor_unused ?_
  rw [sections_zero]
  exact Finset.notMem_empty _

theorem descriptor_update_ne {r : Bytes} {page j : Nat} {e : SectionTableEntry}
    (h : page / 256 ≠ j) : descriptor r (Function.update vm j e) page = descriptor r vm page := by
  unfold descriptor
  rw [Function.update_of_ne h]

/-- The walk depends on the tables' bytes alone. -/
theorem descriptor_congr {r r' : Bytes} (h : SameOn (tables vm) r r') :
    descriptor r' vm = descriptor r vm := by
  funext page
  by_cases hu : page / 256 ∈ sections vm
  · rw [descriptor_used hu, descriptor_used hu]
    have hw : le32 r' ((vm (page / 256)).pageTable + 4 * (page % 256)) =
        le32 r ((vm (page / 256)).pageTable + 4 * (page % 256)) := by
      refine le32_congr fun a h₁ h₂ => h a ?_
      rw [(chunkOf_eq (pageTable_aligned (vm (page / 256)))).mpr (by omega)]
      exact pageTable_mem hu
    rw [hw]
  · rw [descriptor_unused hu, descriptor_unused hu]

/-- Storing an entry changes the walk at its page. -/
theorem descriptor_store {r : Bytes} {page w : Nat} (hn : (tables vm).Nodup) (hw : w < 2 ^ 32)
    (hu : page / 256 ∈ sections vm) :
    descriptor (store32 r ((vm (page / 256)).pageTable + 4 * (page % 256)) w) vm =
      Function.update (descriptor r vm) page (decode (.ofWord w)) := by
  funext q
  by_cases hq : q = page
  · subst hq
    rw [Function.update_self, descriptor_used hu, le32_store32 _ _ hw]
  · rw [Function.update_of_ne hq]
    by_cases hs : q / 256 ∈ sections vm
    · rw [descriptor_used hs, descriptor_used hs, le32_store32_other]
      -- two places of one table, or places of two tables
      by_cases hse : q / 256 = page / 256
      · rw [hse]
        omega
      · have h₁ := pageTable_aligned (vm (page / 256))
        have h₂ := pageTable_aligned (vm (q / 256))
        have hne : (vm (q / 256)).pageTable ≠ (vm (page / 256)).pageTable :=
          fun e => hse (pageTable_inj hn hs hu e)
        omega
    · rw [descriptor_unused hs, descriptor_unused hs]

/-! ### Writing a table -/

theorem le32_memset_zero {r : Bytes} {t a n : Nat} (h₁ : t ≤ a) (h₂ : a + 4 ≤ t + n) :
    le32 (memset r t 0 n) a = 0 := by
  have h : ∀ x, a ≤ x → x < a + 4 → memset r t 0 n x = 0 := by
    intro x hx hx'
    rw [memset_apply, if_pos (by omega)]
  rw [le32_congr (m := fun _ => 0) h]
  simp [le32_eq, le16_eq]

theorem held_tables (P V U : Multiset Nat) : held P (V + U) = V + held P U := by
  rw [held, held, add_left_comm]

theorem SameOn.left {V : Multiset Nat} {r r' : Bytes} (h : SameOn (held P (V + U)) r r') :
    SameOn V r r' := by
  rw [held_tables] at h
  exact h.mono fun _ hc => Multiset.mem_add.mpr (.inl hc)

theorem SameOn.right {V : Multiset Nat} {r r' : Bytes} (h : SameOn (held P (V + U)) r r') :
    SameOn (held P U) r r' := by
  rw [held_tables] at h
  exact h.mono fun _ hc => Multiset.mem_add.mpr (.inr hc)

/-- What the paging functions need of the allocator.  `I m T` says that `m` is in order with the
page tables `T` in use.  They and the chunks `C` of others do not overlap, writing into a table
keeps order, and while there are less than `N` tables there is a fresh one, or `F`. -/
structure TableSource (I : Mem → Multiset Nat → Prop) (C : Multiset Nat) (N : Nat) (F : Prop) :
    Prop where
  nodup : ∀ {m T}, I m T → (T + C).Nodup
  write : ∀ {m T c r}, I m T → c ∈ T → (∀ a, chunkOf a ≠ c → r a = m.ram a) →
    I { m with ram := r } T
  fresh : ∀ {m T}, I m T → T.card < N → wp F (nonNull kalloc1k) m fun c m' =>
    c % 1024 = 0 ∧ c < 2 ^ 32 ∧ I m' (c ::ₘ T) ∧ SameOn (T + C) m.ram m'.ram

/-- The tables of a pool, beside the pages `P` and the tables `U`. -/
theorem poolSource (A : Arena) (P U : Multiset Nat) :
    TableSource (fun m T => Pool A m P (T + U)) (held P U) (A.tableBudget - U.card) (Small A) where
  nodup h := by
    rw [← held_tables]
    exact h.held_nodup
  write h hc hr := by
    refine h.write fun a ha => hr a ?_
    rintro rfl
    rw [held_tables] at ha
    exact ha (Multiset.mem_add.mpr (.inl hc))
  fresh h hT := by
    refine wp_mono (wp_kalloc1k h (by rw [Multiset.card_add]; omega)) ?_
    rintro c m' ⟨hp, hs⟩
    have hc := hp.chunk_mem (Multiset.mem_cons_self c _)
    have := A.chunk_hi hc
    rw [← Multiset.cons_add] at hp
    rw [held_tables] at hs
    exact ⟨A.chunk_aligned hc, by omega, hp, hs⟩

namespace TableSource

variable {I : Mem → Multiset Nat → Prop} {C T : Multiset Nat} {N : Nat}

theorem tables_nodup (src : TableSource I C N F) (h : I m T) : T.Nodup :=
  (Multiset.nodup_add.mp (src.nodup h)).1

/-- A write into a table is not seen by the others. -/
theorem sameOn (src : TableSource I C N F) (h : I m T) {c : Nat} {r : Bytes} (hc : c ∈ T)
    (hr : ∀ a, chunkOf a ≠ c → r a = m.ram a) : SameOn C m.ram r := fun a ha => hr a fun e =>
  Multiset.disjoint_left.mp (Multiset.nodup_add.mp (src.nodup h)).2.2 hc (e ▸ ha)

/-- Storing one entry of a table. -/
theorem storeEntry (src : TableSource I C N F) (h : I m (tables vm)) {page w : Nat}
    (hw : w < 2 ^ 32) (hu : page / 256 ∈ sections vm) :
    let r := store32 m.ram ((vm (page / 256)).pageTable + 4 * (page % 256)) w
    I { m with ram := r } (tables vm) ∧ SameOn C m.ram r ∧
    descriptor r vm = Function.update (descriptor m.ram vm) page (decode (.ofWord w)) := by
  have ht := pageTable_mem hu
  have hr : ∀ a, chunkOf a ≠ (vm (page / 256)).pageTable →
      store32 m.ram ((vm (page / 256)).pageTable + 4 * (page % 256)) w a = m.ram a := by
    intro a ha
    rw [ne_eq, chunkOf_eq (pageTable_aligned _)] at ha
    exact store32_other (by omega)
  exact ⟨src.write h ht hr, src.sameOn h ht hr, descriptor_store (src.tables_nodup h) hw hu⟩

end TableSource

/-- The descriptor `map_page` writes. -/
def pageEntry (accessPermissions frame : Nat) : PageTableEntry :=
  ⟨PAGE_DESC, 0, 0, accessPermissions, frame⟩

/-- The permissions are stored in eight bits. -/
theorem decode_pageEntry {ap frame : Nat} (hf : frame < 2 ^ 20) :
    decode (.ofWord (pageEntry ap frame).word) = some (pageEntry (ap % 2 ^ 8) frame) := by
  have hword : (pageEntry ap frame).word = (pageEntry (ap % 2 ^ 8) frame).word := by
    simp only [pageEntry, PageTableEntry.word, Nat.mod_mod]
  have hd : (pageEntry (ap % 2 ^ 8) frame).descType < 2 ^ 2 := show 2 < 2 ^ 2 by decide
  rw [hword, PageTableEntry.ofWord_word hd Nat.two_pos Nat.two_pos
    (Nat.mod_lt _ (Nat.two_pow_pos 8)) hf]
  rfl

/-! ### Mapping pages -/

/-- The walk `D` with `n` pages from `page` mapped to the frames from `frame` on. -/
def mapped (D : Nat → Option PageTableEntry) (page frame n ap : Nat) :
    Nat → Option PageTableEntry := fun q =>
  if page ≤ q ∧ q < page + n then some (pageEntry ap (frame + (q - page))) else D q

theorem mapped_zero (D : Nat → Option PageTableEntry) (page frame ap : Nat) :
    mapped D page frame 0 ap = D := by
  funext q
  exact if_neg (by omega)

theorem mapped_succ (D : Nat → Option PageTableEntry) (page frame n ap : Nat) :
    Function.update (mapped D page frame n ap) (page + n) (some (pageEntry ap (frame + n))) =
      mapped D page frame (n + 1) ap := by
  funext q
  rw [Function.update_apply, mapped, mapped]
  split_ifs with h₁ h₂ h₃ <;> first | omega | rfl | skip
  subst h₁
  rw [Nat.add_sub_cancel_left]

namespace MemoryMapping

/-- The number of pages mapped. -/
def count (mapping : MemoryMapping) : Nat :=
  (mapping.physicalEnd + 4095) / 4096 - mapping.physicalStart / 4096

/-- The walk with the mapping added. -/
def extend (mapping : MemoryMapping) (D : Nat → Option PageTableEntry) :
    Nat → Option PageTableEntry :=
  mapped D (mapping.virtualAddress / 4096) (mapping.physicalStart / 4096) mapping.count
    mapping.accessPermissions

/-- The mapping runs forward, below the top of both address spaces, inside the sections `S`. -/
structure Fits (mapping : MemoryMapping) (S : Finset Nat) : Prop where
  forward : mapping.physicalStart / 4096 ≤ (mapping.physicalEnd + 4095) / 4096
  physical : mapping.physicalEnd + 4095 < 2 ^ 32
  virtual : mapping.virtualAddress / 4096 + mapping.count ≤ 2 ^ 20
  permissions : mapping.accessPermissions < 2 ^ 8
  inside : ∀ i < mapping.count, (mapping.virtualAddress / 4096 + i) / 256 ∈ S

/-- How far a page comes after the mapping's first; page 0 comes after the last of memory. -/
def offset (mapping : MemoryMapping) (page : Nat) : Nat :=
  (page + 2 ^ 20 - mapping.virtualAddress / 4096) % 2 ^ 20

/-- The mapping maps the page. -/
def Covers (mapping : MemoryMapping) (page : Nat) : Prop :=
  page < 2 ^ 20 ∧ mapping.offset page < mapping.count

instance (mapping : MemoryMapping) (page : Nat) : Decidable (mapping.Covers page) :=
  inferInstanceAs (Decidable (_ ∧ _))

/-- The descriptor of a page the mapping maps. -/
def entry (mapping : MemoryMapping) (page : Nat) : PageTableEntry :=
  pageEntry (mapping.accessPermissions % 2 ^ 8)
    ((mapping.physicalStart / 4096 + mapping.offset page) % 2 ^ 20)

/-- The walk with the first `n` pages of the mapping added. -/
def wrapped (mapping : MemoryMapping) (n : Nat) (D : Nat → Option PageTableEntry) :
    Nat → Option PageTableEntry := fun q =>
  if q < 2 ^ 20 ∧ mapping.offset q < n then some (mapping.entry q) else D q

/-- The mapping runs forward, over less than all of memory, inside the sections `S`.  It may run
over the top of both address spaces. -/
structure Wraps (mapping : MemoryMapping) (S : Finset Nat) : Prop where
  forward : mapping.physicalStart / 4096 ≤ (mapping.physicalEnd + 4095) / 4096
  physical : mapping.physicalEnd < 2 ^ 32
  virtual : mapping.virtualAddress / 4096 ≤ 2 ^ 20
  span : mapping.count < 2 ^ 20
  inside : ∀ i < mapping.count, (mapping.virtualAddress / 4096 + i) % 2 ^ 20 / 256 ∈ S

theorem wrapped_zero (mapping : MemoryMapping) (D : Nat → Option PageTableEntry) :
    mapping.wrapped 0 D = D := by
  funext q
  exact if_neg (by omega)

/-- Mapping the next page. -/
theorem wrapped_succ {mapping : MemoryMapping} {D : Nat → Option PageTableEntry} {i : Nat}
    (hv : mapping.virtualAddress / 4096 ≤ 2 ^ 20) (hi : i < 2 ^ 20) :
    Function.update (mapping.wrapped i D) ((mapping.virtualAddress / 4096 + i) % 2 ^ 20)
      (some (pageEntry (mapping.accessPermissions % 2 ^ 8)
        ((mapping.physicalStart / 4096 + i) % 2 ^ 20))) = mapping.wrapped (i + 1) D := by
  funext q
  by_cases hq : q = (mapping.virtualAddress / 4096 + i) % 2 ^ 20
  · have hoff : mapping.offset q = i := by
      unfold offset
      omega
    rw [hq, Function.update_self, ← hq, wrapped, if_pos (by omega), entry, hoff]
  · have hoff : q < 2 ^ 20 → mapping.offset q ≠ i := by
      unfold offset
      omega
    rw [Function.update_of_ne hq, wrapped, wrapped]
    refine if_congr ?_ rfl rfl
    omega

namespace Fits

variable {mapping : MemoryMapping} {S : Finset Nat}

theorem wraps (h : mapping.Fits S) : mapping.Wraps S := by
  obtain ⟨hfw, hph, hvt, -, hin⟩ := h
  have hspan : mapping.count < 2 ^ 20 := by
    rw [count]
    omega
  refine ⟨hfw, by omega, by omega, hspan, fun i hi => ?_⟩
  rw [Nat.mod_eq_of_lt (by omega)]
  exact hin i hi

/-- Below the top nothing wraps. -/
theorem wrapped_eq (h : mapping.Fits S) (D : Nat → Option PageTableEntry) :
    mapping.wrapped mapping.count D = mapping.extend D := by
  obtain ⟨hfw, hph, hvt, hap, -⟩ := h
  have hcount : mapping.physicalStart / 4096 + mapping.count < 2 ^ 20 := by
    rw [count]
    omega
  funext q
  rw [wrapped, extend, mapped]
  by_cases hq : mapping.virtualAddress / 4096 ≤ q ∧
      q < mapping.virtualAddress / 4096 + mapping.count
  · have hoff : mapping.offset q = q - mapping.virtualAddress / 4096 := by
      rw [offset]
      omega
    rw [if_pos hq, entry, hoff, if_pos (by omega), Nat.mod_eq_of_lt hap,
      Nat.mod_eq_of_lt (by omega)]
  · rw [if_neg hq, if_neg]
    rw [offset]
    omega

end Fits

end MemoryMapping

/-- In `m` the table `vm` uses sections of `S` and its walk is `D`; its tables are in use. -/
structure Realises (I : Mem → Multiset Nat → Prop) (S : Finset Nat) (vm : SectionTable)
    (D : Nat → Option PageTableEntry) (m : Mem) : Prop where
  order : I m (tables vm)
  inside : sections vm ⊆ S
  walk : descriptor m.ram vm = D

/-- From `vm` to `vm'` sections are only put to use. -/
def Adds (vm vm' : SectionTable) : Prop :=
  ∀ j, (vm' j).descType = (vm j).descType ∨ (vm' j).descType = SECTION_DESC

theorem Adds.refl (vm : SectionTable) : Adds vm vm := fun _ => .inl rfl

theorem Adds.trans {vm vm' vm'' : SectionTable} (h : Adds vm vm') (h' : Adds vm' vm'') :
    Adds vm vm'' := fun j => by
  rcases h' j with e | e
  · rw [e]
    exact h j
  · exact .inr e

theorem Adds.update (vm : SectionTable) (j : Nat) {e : SectionTableEntry}
    (he : e.descType = SECTION_DESC) : Adds vm (Function.update vm j e) := fun i => by
  by_cases hi : i = j
  · subst hi
    rw [Function.update_self]
    exact .inr he
  · rw [Function.update_of_ne hi]
    exact .inl rfl

namespace TableSource

variable {I : Mem → Multiset Nat → Prop} {C : Multiset Nat} {N : Nat} {S : Finset Nat}
  {D : Nat → Option PageTableEntry} (src : TableSource I C N F) (hS : S ⊆ Finset.range 4096)
  (hN : S.card ≤ N)
include src hS hN

/-- The table of a section of `S`: an old one, or a fresh one that the walk finds empty. -/
theorem wp_sectionPageTable {j : Nat} (h : Realises I S vm D m) (hj : j ∈ S) :
    wp F (sectionPageTable vm j) m fun r m' =>
      r.2 = (r.1 j).pageTable ∧ j ∈ sections r.1 ∧ Realises I S r.1 D m' ∧
      SameOn C m.ram m'.ram ∧ Adds vm r.1 := by
  obtain ⟨hI, hin, hD⟩ := h
  have hj' : j < 4096 := Finset.mem_range.mp (hS hj)
  refine wp_ite (fun hfree => ?_) fun hused => ?_
  · have hnot : j ∉ sections vm := fun hs => (mem_sections.mp hs).2 hfree
    have hcard : (tables vm).card < N := by
      have := Finset.card_lt_card ((Finset.ssubset_iff_of_subset hin).mpr ⟨j, hj, hnot⟩)
      rw [card_tables]
      omega
    refine wp_seq (src.fresh hI hcard) ?_
    rintro c m₁ ⟨hal, hlt, hI₁, hsame₁⟩
    have hpt : (SectionTableEntry.mk SECTION_DESC 0 (v2p c / 2 ^ 10)).pageTable = c :=
      pageTable_of_chunk hal hlt
    obtain ⟨hsec, htab⟩ := tables_update (e := ⟨SECTION_DESC, 0, v2p c / 2 ^ 10⟩) hj' hfree
      Nat.one_ne_zero
    have hu := Finset.mem_insert_self j (sections vm)
    rw [← hsec] at hu
    rw [hpt] at htab
    have hr : ∀ a, chunkOf a ≠ c → memset m₁.ram c 0 1024 a = m₁.ram a := by
      intro a ha
      rw [ne_eq, chunkOf_eq hal] at ha
      exact memset_other (by omega)
    have hmem := Multiset.mem_cons_self c (tables vm)
    have hsame₂ := src.sameOn hI₁ hmem hr
    -- the fresh table is none of the old ones, so these keep their bytes
    have hold : SameOn (tables vm) m.ram (memset m₁.ram c 0 1024) := by
      refine fun a ha => (hr a fun e => ?_).trans (hsame₁ a (Multiset.mem_add.mpr (.inl ha)))
      exact (Multiset.nodup_cons.mp (src.tables_nodup hI₁)).1 (e ▸ ha)
    refine wp_modify_bind (wp_pure ⟨?_, hu, ⟨?_, ?_, ?_⟩, ?_, .update vm j rfl⟩)
    · simp only [Function.update_self, hpt]
    · rw [htab]
      exact src.write hI₁ hmem hr
    · rw [hsec]
      exact Finset.insert_subset hj hin
    · rw [← hD]
      funext page
      by_cases hpage : page / 256 = j
      · subst hpage
        rw [descriptor_used hu, Function.update_self, hpt, le32_memset_zero (by omega) (by omega),
          descriptor_unused hnot]
        rfl
      · exact (descriptor_update_ne hpage).trans (congrFun (descriptor_congr hold) page)
    · exact (hsame₁.mono fun _ hc => Multiset.mem_add.mpr (.inr hc)).trans hsame₂
  · exact wp_pure ⟨rfl, mem_sections.mpr ⟨hj', hused⟩, ⟨hI, hin, hD⟩, .refl _ _, .refl _⟩

/-- `map_page`: the walk changes at one page. -/
theorem wp_mapPage {physical virtualAddr ap : Nat} (h : Realises I S vm D m)
    (hj : virtualAddr / 2 ^ 20 ∈ S) (hp : physical < 2 ^ 32) :
    wp F (mapPage vm physical virtualAddr ap) m fun vm' m' =>
      Realises I S vm' (Function.update D (virtualAddr / 2 ^ 12)
        (some (pageEntry (ap % 2 ^ 8) (physical / 2 ^ 12)))) m' ∧ SameOn C m.ram m'.ram ∧
      Adds vm vm' := by
  have hpage : virtualAddr / 2 ^ 12 / 256 = virtualAddr / 2 ^ 20 := by omega
  refine wp_seq (src.wp_sectionPageTable hS hN h hj) ?_
  rintro ⟨vm', t⟩ m₁ ⟨ht, hu, ⟨hI₁, hin₁, hd₁⟩, hs₁, ha₁⟩
  simp only at ht hu hI₁ hin₁ hd₁
  replace ht : t = (vm' (virtualAddr / 2 ^ 12 / 256)).pageTable := by rw [hpage, ht]
  replace hu : virtualAddr / 2 ^ 12 / 256 ∈ sections vm' := by rwa [hpage]
  show wp _ (onRam (store32 · (t + 4 * (virtualAddr / 2 ^ 12 % 256))
    (pageEntry ap (physical / 2 ^ 12)).word) >>= fun _ => pure vm') m₁ _
  rw [ht]
  obtain ⟨hI₂, hs₂, hd₂⟩ := src.storeEntry hI₁ (pageEntry ap (physical / 2 ^ 12)).word_lt hu
  refine wp_modify_bind (wp_pure ⟨⟨hI₂, hin₁, ?_⟩, hs₁.trans hs₂, ha₁⟩)
  rw [hd₂, hd₁, decode_pageEntry (by omega)]

/-- `map_pages`: the walk changes at the mapping's pages. -/
theorem wp_mapPages {mapping : MemoryMapping} (hwrap : mapping.Wraps S)
    (h : Realises I S vm D m) :
    wp F (mapPages vm mapping) m fun vm' m' =>
      Realises I S vm' (mapping.wrapped mapping.count D) m' ∧ SameOn C m.ram m'.ram ∧
      Adds vm vm' := by
  obtain ⟨hfw, hph, hv, hspan, hin⟩ := hwrap
  have hn : pageCount (roundDown mapping.physicalStart 4096) (roundUp mapping.physicalEnd 4096) =
      mapping.count := by
    rw [MemoryMapping.count] at hspan ⊢
    rw [pageCount, roundDown, roundUp, u32, u32]
    omega
  -- after `i` rounds the first `i` pages are mapped
  let J : Nat → SectionTable → Mem → Prop := fun i vm' m' =>
    Realises I S vm' (mapping.wrapped i D) m' ∧ SameOn C m.ram m'.ram ∧ Adds vm vm'
  have h₀ : J 0 vm m := by
    refine ⟨⟨h.order, h.inside, ?_⟩, .refl _ _, .refl _⟩
    rw [h.walk, MemoryMapping.wrapped_zero]
  unfold mapPages
  simp only [hn]
  refine wp_loop J h₀ ?_
  rintro i vm₁ m₁ hi ⟨hw₁, hs₁, ha₁⟩
  have hpage : u32 (roundDown mapping.virtualAddress 4096 + i * 4096) / 2 ^ 12 =
      (mapping.virtualAddress / 4096 + i) % 2 ^ 20 := by
    rw [roundDown, u32]
    omega
  have hframe : u32 (roundDown mapping.physicalStart 4096 + i * 4096) / 2 ^ 12 =
      (mapping.physicalStart / 4096 + i) % 2 ^ 20 := by
    rw [roundDown, u32]
    omega
  have hj : u32 (roundDown mapping.virtualAddress 4096 + i * 4096) / 2 ^ 20 ∈ S := by
    have := hin i hi
    rwa [← hpage, Nat.div_div_eq_div_mul] at this
  refine wp_mono (src.wp_mapPage hS hN hw₁ hj (u32_lt _)) ?_
  rintro vm₂ m₂ ⟨hw₂, hs₂, ha₂⟩
  rw [hpage, hframe, MemoryMapping.wrapped_succ hv (by omega)] at hw₂
  exact ⟨hw₂, hs₁.trans hs₂, ha₁.trans ha₂⟩

/-- A list of mappings, one after the other. -/
theorem wp_mapAll {mappings : List MemoryMapping} (hwrap : ∀ mapping ∈ mappings, mapping.Wraps S)
    (h : Realises I S vm D m) :
    wp F (mappings.foldlM mapPages vm) m fun vm' m' =>
      Realises I S vm'
        (mappings.foldl (fun D mapping => mapping.wrapped mapping.count D) D) m' ∧
      SameOn C m.ram m'.ram ∧ Adds vm vm' := by
  induction mappings generalizing vm D m with
  | nil => exact wp_pure ⟨h, .refl _ _, .refl _⟩
  | cons mapping mappings ih =>
      rw [List.foldlM_cons, List.foldl_cons]
      refine wp_seq (src.wp_mapPages hS hN (hwrap _ List.mem_cons_self) h) ?_
      rintro vm₁ m₁ ⟨hw₁, hs₁, ha₁⟩
      refine wp_mono (ih (fun mp hmp => hwrap mp (List.mem_cons_of_mem _ hmp)) hw₁) ?_
      rintro vm₂ m₂ ⟨hw₂, hs₂, ha₂⟩
      exact ⟨hw₂, hs₁.trans hs₂, ha₁.trans ha₂⟩

end TableSource

/-! ### The tables of a pool -/

/-- In `m` the table `vm` uses sections of `S` and its walk is `D`; the holders have its tables. -/
structure Walks (A : Arena) (P U : Multiset Nat) (S : Finset Nat) (vm : SectionTable)
    (D : Nat → Option PageTableEntry) (m : Mem) : Prop where
  pool : Pool A m P (tables vm + U)
  inside : sections vm ⊆ S
  walk : descriptor m.ram vm = D

section Map

variable {S : Finset Nat} {D : Nat → Option PageTableEntry} (hS : S ⊆ Finset.range 4096)
  (hN : U.card + S.card ≤ A.tableBudget)
include hS hN

/-- A list of mappings below the top of memory, one after the other. -/
theorem wp_mapAll {mappings : List MemoryMapping} (hfit : ∀ mapping ∈ mappings, mapping.Fits S)
    (h : Walks A P U S vm D m) :
    wp (Small A) (mappings.foldlM mapPages vm) m fun vm' m' =>
      Walks A P U S vm' (mappings.foldl (fun D mapping => mapping.extend D) D) m' ∧
      SameOn (held P U) m.ram m'.ram := by
  have hmap : ∀ D, mappings.foldl (fun D mapping => mapping.wrapped mapping.count D) D =
      mappings.foldl (fun D mapping => mapping.extend D) D := by
    intro D
    exact List.foldl_ext _ _ _ fun D mapping hmem => (hfit mapping hmem).wrapped_eq D
  have hrun := (poolSource A P U).wp_mapAll hS (Nat.le_sub_of_add_le (by omega))
    (fun mapping hmem => (hfit mapping hmem).wraps)
    (Realises.mk h.pool h.inside h.walk)
  refine wp_mono hrun ?_
  rintro vm' m' ⟨hw, hs, -⟩
  exact ⟨⟨hw.order, hw.inside, hw.walk.trans (hmap D)⟩, hs⟩

/-- One mapping below the top of memory. -/
theorem wp_mapPages {mapping : MemoryMapping} (hfit : mapping.Fits S)
    (h : Walks A P U S vm D m) :
    wp (Small A) (mapPages vm mapping) m fun vm' m' =>
      Walks A P U S vm' (mapping.extend D) m' ∧ SameOn (held P U) m.ram m'.ram := by
  have hrun : wp (Small A) ([mapping].foldlM mapPages vm) m _ :=
    wp_mapAll hS hN (by simpa using hfit) h
  rwa [List.foldlM_cons, show (fun vm => List.foldlM mapPages vm []) = pure from rfl,
    bind_pure] at hrun

end Map

/-! ### Unmapping, freeing, resolving -/

/-- A page with a valid descriptor lies in a used section. -/
theorem section_of_descriptor {r : Bytes} {page : Nat} (h : descriptor r vm page ≠ none) :
    page / 256 ∈ sections vm := by
  by_contra hu
  exact h (descriptor_unused hu)

/-- `unmap_page`: the walk loses the page. -/
theorem wp_unmapPage {S : Finset Nat} {D : Nat → Option PageTableEntry} {virtualAddr : Nat}
    (h : Walks A P U S vm D m) (hD : D (virtualAddr / 2 ^ 12) ≠ none) :
    wp F (unmapPage vm virtualAddr) m fun _ m' =>
      Walks A P U S vm (Function.update D (virtualAddr / 2 ^ 12) none) m' ∧
      SameOn (held P U) m.ram m'.ram := by
  have hpage : virtualAddr / 2 ^ 20 = virtualAddr / 2 ^ 12 / 256 := by omega
  rw [← h.walk] at hD
  unfold unmapPage
  rw [hpage]
  generalize hw : le32 m.ram ((vm (virtualAddr / 2 ^ 12 / 256)).pageTable +
    4 * (virtualAddr / 2 ^ 12 % 256)) / 4 * 4 = w
  have hlt : w < 2 ^ 32 := by
    have := le32_lt m.ram ((vm (virtualAddr / 2 ^ 12 / 256)).pageTable +
      4 * (virtualAddr / 2 ^ 12 % 256))
    omega
  have hdec : decode (.ofWord w) = none := by
    refine if_neg (not_not.mpr ?_)
    show w % 2 ^ 2 = 0
    omega
  obtain ⟨hp, hs, hd⟩ := (poolSource A P U).storeEntry h.pool hlt (section_of_descriptor hD)
  refine wp_modify ?_
  dsimp only
  rw [hw]
  refine ⟨⟨hp, h.inside, ?_⟩, hs⟩
  rw [hd, hdec, h.walk]

/-- The tables of the sections from `i` on. -/
def tablesFrom (vm : SectionTable) (i : Nat) : Multiset Nat :=
  ((sections vm).filter (i ≤ ·)).val.map fun j => (vm j).pageTable

theorem tablesFrom_zero (vm : SectionTable) : tablesFrom vm 0 = tables vm := by
  simp [tablesFrom, tables]

theorem tablesFrom_end (vm : SectionTable) : tablesFrom vm 4096 = 0 := by
  have : (sections vm).filter (4096 ≤ ·) = ∅ := by
    refine Finset.filter_eq_empty_iff.mpr fun j hj => ?_
    have := (mem_sections.mp hj).1
    omega
  simp [tablesFrom, this]

theorem tablesFrom_of_mem {i : Nat} (hi : i ∈ sections vm) :
    tablesFrom vm i = (vm i).pageTable ::ₘ tablesFrom vm (i + 1) := by
  have hset : (sections vm).filter (i ≤ ·) = insert i ((sections vm).filter (i + 1 ≤ ·)) := by
    ext j
    simp only [Finset.mem_filter, Finset.mem_insert]
    constructor
    · rintro ⟨hj, hij⟩
      rcases Nat.eq_or_lt_of_le hij with e | hlt
      · exact .inl e.symm
      · exact .inr ⟨hj, hlt⟩
    · rintro (rfl | ⟨hj, hij⟩)
      · exact ⟨hi, le_rfl⟩
      · exact ⟨hj, by omega⟩
  have hnot : i ∉ (sections vm).filter (i + 1 ≤ ·) := by simp
  rw [tablesFrom, hset, Finset.insert_val_of_notMem hnot, Multiset.map_cons]
  rfl

theorem tablesFrom_of_not_mem {i : Nat} (hi : i ∉ sections vm) :
    tablesFrom vm i = tablesFrom vm (i + 1) := by
  have hset : (sections vm).filter (i ≤ ·) = (sections vm).filter (i + 1 ≤ ·) := by
    refine Finset.filter_congr fun j hj => ?_
    have : j ≠ i := fun e => hi (e ▸ hj)
    omega
  rw [tablesFrom, hset, tablesFrom]

/-- `free_vm_page_tables`: the tables go back to the allocator. -/
theorem wp_freeVmPageTables (h : Pool A m P (tables vm + U)) :
    wp F (freeVmPageTables vm) m fun _ m' =>
      Pool A m' P U ∧ SameOn (held P U) m.ram m'.ram := by
  let I : Nat → Unit → Mem → Prop := fun i _ m' =>
    Pool A m' P (tablesFrom vm i + U) ∧ SameOn (held P U) m.ram m'.ram
  have h₀ : I 0 () m := by
    refine ⟨?_, .refl _ _⟩
    rw [tablesFrom_zero]
    exact h
  unfold freeVmPageTables
  refine wp_mono (wp_loop I h₀ ?_) ?_
  · rintro i - m₁ hi ⟨hp, hs⟩
    refine wp_ite (fun hused => ?_) fun hfree => ?_
    · rw [tablesFrom_of_mem (mem_sections.mpr ⟨hi, hused⟩), Multiset.cons_add] at hp
      refine wp_mono (wp_kfree1k hp) ?_
      rintro - m₂ ⟨hp₂, hs₂⟩
      exact ⟨hp₂, hs.trans hs₂.right⟩
    · rw [tablesFrom_of_not_mem fun hm => hfree (mem_sections.mp hm).2] at hp
      exact wp_pure ⟨hp, hs⟩
  · rintro - m' ⟨hp, hs⟩
    rw [tablesFrom_end, zero_add] at hp
    exact ⟨hp, hs⟩

/-- The address of an entry, put together with `|`. -/
theorem entry_address (b v : Nat) :
    p2v (u32 (b <<< 10) ||| ((v >>> 10) &&& 0x3fc)) =
      p2v (u32 (b * 2 ^ 10)) + 4 * (v / 4096 % 256) := by
  have hb : u32 (b <<< 10) = (b % 2 ^ 22) <<< 10 := by
    rw [Nat.shiftLeft_eq, Nat.shiftLeft_eq, u32]
    omega
  have hv : (v >>> 10) &&& 0x3fc = 4 * (v / 4096 % 256) := by
    rw [show 0x3fc = (2 ^ 8 - 1) <<< 2 from rfl, and_shiftLeft_mask, Nat.shiftRight_eq_div_pow]
    omega
  rw [hb, hv, shiftLeft_or_of_lt (by omega)]
  simp only [p2v, u32] at *
  omega

/-- `resolve_physical_address` computes what the walk finds. -/
theorem resolvePhysicalAddress_eq {r : Bytes} {virtual : Nat} {e : PageTableEntry}
    (hd : descriptor r vm (virtual / 4096) = some e) :
    resolvePhysicalAddress r vm virtual = e.baseAddress * 4096 + virtual % 4096 ∧
    e.baseAddress < 2 ^ 20 := by
  have hu := section_of_descriptor (hd ▸ Option.some_ne_none e)
  rw [descriptor_used hu] at hd
  have he : PageTableEntry.ofWord (le32 r ((vm (virtual / 4096 / 256)).pageTable +
      4 * (virtual / 4096 % 256))) = e := by
    unfold decode at hd
    split at hd
    · exact Option.some.inj hd
    · cases hd
  have hlt : e.baseAddress < 2 ^ 20 := he ▸ Nat.mod_lt _ (by decide)
  refine ⟨?_, hlt⟩
  have hsec : virtual >>> 20 = virtual / 4096 / 256 := by
    rw [Nat.shiftRight_eq_div_pow]
    omega
  have hfr : u32 (e.baseAddress <<< 12) = e.baseAddress <<< 12 := by
    rw [Nat.shiftLeft_eq]
    exact u32_of_lt (by omega)
  have hoff : virtual &&& 0xfff = virtual % 4096 := by
    rw [show 0xfff = 2 ^ 12 - 1 from rfl, Nat.and_two_pow_sub_one_eq_mod]
  rw [resolvePhysicalAddress, hsec, entry_address]
  change u32 ((PageTableEntry.ofWord (le32 r ((vm (virtual / 4096 / 256)).pageTable +
    4 * (virtual / 4096 % 256)))).baseAddress <<< 12) ||| _ = _
  rw [he, hfr, hoff, shiftLeft_or_of_lt (by omega)]
  omega

/-- What the walk is, `resolve_physical_address` computes. -/
theorem Walks.resolve {S : Finset Nat} {D : Nat → Option PageTableEntry} {virtual : Nat}
    {e : PageTableEntry} (h : Walks A P U S vm D m) (hD : D (virtual / 4096) = some e) :
    resolvePhysicalAddress m.ram vm virtual = e.baseAddress * 4096 + virtual % 4096 :=
  (resolvePhysicalAddress_eq ((congrFun h.walk _).trans hD)).1

end Arunos
