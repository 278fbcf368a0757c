import Arunos.Memory.Accounts

/-!
# Memory — Pool — the kernel's memory and its budgets

An `Arena` is the set of pages that the kernel gives to `kalloc_init`, with the most pages and 1K
chunks it ever asks for.  `Pool A m P T` says that the accounts of `m` balance over the arena
(`Accounts`), and that the history counters stay below the budgets.

Each allocator call keeps the pool.  A block is refused only when the arena is no larger than the
budgets the holders keep to (`Small`).
-/

namespace Arunos

/-- The pages given to `kalloc_init`, and the most pages and chunks the kernel asks for. -/
structure Arena where
  pages : Multiset Nat
  pageBudget : Nat
  tableBudget : Nat
  nodup : pages.Nodup
  aligned : ∀ p ∈ pages, p % 4096 = 0
  lo : ∀ p ∈ pages, 0x80000000 ≤ p
  hi : ∀ p ∈ pages, p + 4096 ≤ 0x90000000

namespace Arena

/-- The chunks of the arena. -/
def chunks (A : Arena) : Multiset Nat := A.pages.bind pageChunks

/-- The arena as a set of pages. -/
def pageSet (A : Arena) : PageSet where
  pages := A.pages
  nodup := A.nodup
  aligned := A.aligned
  pos p hp := by
    have := A.lo p hp
    omega
  below p hp := by
    have := A.hi p hp
    omega

theorem mem_chunks {A : Arena} {c : Nat} :
    c ∈ A.chunks ↔ c % 1024 = 0 ∧ c / 4096 * 4096 ∈ A.pages := PageSet.mem_chunks (S := A.pageSet)

theorem chunk_aligned {A : Arena} {c : Nat} (h : c ∈ A.chunks) : c % 1024 = 0 :=
  (mem_chunks.mp h).1

theorem chunk_lo {A : Arena} {c : Nat} (h : c ∈ A.chunks) : 0x80000000 ≤ c := by
  have := A.lo _ (mem_chunks.mp h).2
  omega

theorem chunk_hi {A : Arena} {c : Nat} (h : c ∈ A.chunks) : c + 1024 ≤ 0x90000000 := by
  have h₁ := A.hi _ (mem_chunks.mp h).2
  have h₂ := (mem_chunks.mp h).1
  omega

/-- Some of the arena's pages. -/
def sub (A : Arena) (Q : Multiset Nat) (hQ : Q ≤ A.pages) : Arena where
  pages := Q
  pageBudget := A.pageBudget
  tableBudget := A.tableBudget
  nodup := Multiset.nodup_of_le hQ A.nodup
  aligned p hp := A.aligned p (Multiset.mem_of_le hQ hp)
  lo p hp := A.lo p (Multiset.mem_of_le hQ hp)
  hi p hp := A.hi p (Multiset.mem_of_le hQ hp)

@[simp] theorem sub_pageBudget (A : Arena) (Q : Multiset Nat) (hQ : Q ≤ A.pages) :
    (A.sub Q hQ).pageBudget = A.pageBudget := rfl

@[simp] theorem sub_tableBudget (A : Arena) (Q : Multiset Nat) (hQ : Q ≤ A.pages) :
    (A.sub Q hQ).tableBudget = A.tableBudget := rfl

theorem card_le (A : Arena) : A.pages.card ≤ 65536 := by
  have hmap : (A.pages.map (· / 4096)).Nodup :=
    Multiset.Nodup.map_on (fun p hp q hq e => by
      have := A.aligned p hp
      have := A.aligned q hq
      omega) A.nodup
  have hsub : A.pages.map (· / 4096) ⊆ Multiset.map (0x80000 + ·) (Multiset.range 65536) := by
    intro n hn
    obtain ⟨p, hp, rfl⟩ := Multiset.mem_map.mp hn
    have := A.lo p hp
    have := A.hi p hp
    exact Multiset.mem_map.mpr ⟨p / 4096 - 0x80000, Multiset.mem_range.mpr (by omega), by omega⟩
  have := Multiset.card_le_card ((Multiset.le_iff_subset hmap).mpr hsub)
  rwa [Multiset.card_map, Multiset.card_map, Multiset.card_range] at this

end Arena

/-! ### The accounts -/

/-- The arena has no more chunks than the budgets, with a split page to spare. -/
def Small (A : Arena) : Prop := 4 * A.pages.card ≤ 4 * A.pageBudget + A.tableBudget + 3

/-- The lists `l4` and `l1` with the holders' `P` and `T` make up the arena. -/
structure PoolCore (A : Arena) (m : Mem) (P T : Multiset Nat) (l4 l1 : List Nat) : Prop where
  list4 : Linked m.ram m.freeList4k l4
  list1 : Linked m.ram m.freeList1k l1
  ledger : (l4 : Multiset Nat).bind pageChunks + (l1 : Multiset Nat) + held P T = A.chunks
  aligned4 : ∀ p ∈ l4, p % 4096 = 0
  alignedP : ∀ p ∈ P, p % 4096 = 0
  out : m.chunksOut = T.card
  split : 4 * m.splits = l1.length + T.card

/-- The accounts balance, and the history stays below its bounds. -/
structure Pool (A : Arena) (m : Mem) (P T : Multiset Nat) : Prop where
  core : ∃ l4 l1, PoolCore A m P T l4 l1
  peak : 4 * m.splits ≤ m.peakChunks + 3
  out_le : m.chunksOut ≤ m.peakChunks
  cap : m.peakChunks ≤ A.tableBudget
  pages : P.card ≤ A.pageBudget

variable {A : Arena} {m : Mem} {P T : Multiset Nat} {l4 l1 : List Nat} {F : Prop}

theorem PoolCore.toAccounts (h : PoolCore A m P T l4 l1) : Accounts A.pageSet m P T l4 l1 :=
  ⟨h.list4, h.list1, h.ledger, h.aligned4, h.alignedP⟩

theorem Accounts.toCore (h : Accounts A.pageSet m P T l4 l1) (out : m.chunksOut = T.card)
    (split : 4 * m.splits = l1.length + T.card) : PoolCore A m P T l4 l1 :=
  ⟨h.list4, h.list1, h.ledger, h.aligned4, h.alignedP, out, split⟩

namespace Pool

theorem held_nodup (h : Pool A m P T) : (held P T).Nodup := by
  obtain ⟨l4, l1, hc⟩ := h.core
  exact hc.toAccounts.held_nodup

theorem held_sub (h : Pool A m P T) {c : Nat} (hc : c ∈ held P T) : c ∈ A.chunks := by
  obtain ⟨l4, l1, hcore⟩ := h.core
  exact hcore.toAccounts.held_sub hc

theorem page_aligned (h : Pool A m P T) {p : Nat} (hp : p ∈ P) : p % 4096 = 0 := by
  obtain ⟨l4, l1, hcore⟩ := h.core
  exact hcore.alignedP p hp

theorem page_mem (h : Pool A m P T) {p : Nat} (hp : p ∈ P) : p ∈ A.chunks :=
  h.held_sub (Multiset.mem_add.mpr (.inl (Multiset.mem_bind.mpr
    ⟨p, hp, mem_pageChunks.mpr (.inl rfl)⟩)))

theorem page_bounds (h : Pool A m P T) {p : Nat} (hp : p ∈ P) :
    0x80000000 ≤ p ∧ p + 4096 ≤ 0x90000000 := by
  have h₁ := h.page_mem hp
  have h₂ := A.chunk_lo h₁
  have h₃ := A.hi _ (Arena.mem_chunks.mp h₁).2
  have h₄ := h.page_aligned hp
  omega

theorem chunk_mem (h : Pool A m P T) {c : Nat} (hc : c ∈ T) : c ∈ A.chunks :=
  h.held_sub (Multiset.mem_add.mpr (.inr hc))

/-- Writing into held blocks keeps the accounts. -/
theorem write (h : Pool A m P T) {r : Bytes}
    (hr : ∀ a, chunkOf a ∉ held P T → r a = m.ram a) : Pool A { m with ram := r } P T := by
  obtain ⟨l4, l1, hcore⟩ := h.core
  have hw := hcore.toAccounts.write fun a _ ha => hr a ha
  exact { h with core := ⟨l4, l1, hw.toCore hcore.out hcore.split⟩ }

end Pool

/-! ### The allocator keeps the accounts -/

/-- With no page on the list, the arena is small. -/
theorem small_of_empty (h : Pool A m P T) (hc : PoolCore A m P T [] l1) : Small A := by
  have hcard := hc.toAccounts.card_eq
  have h₀ : A.pageSet.pages.card = A.pages.card := rfl
  have h₁ := hc.split
  have h₂ := h.peak
  have h₃ := h.cap
  have h₄ := h.pages
  rw [List.length_nil] at hcard
  unfold Small
  omega

/-- `kalloc`: a page moves from the list to the holders, and no byte changes. -/
theorem wp_kalloc (h : Pool A m P T) (hP : P.card < A.pageBudget) :
    wp (Small A) (nonNull kalloc) m fun p m' => Pool A m' (p ::ₘ P) T ∧ m'.ram = m.ram := by
  obtain ⟨l4, l1, hc⟩ := h.core
  refine wp_seq hc.toAccounts.wp_kalloc ?_
  rintro p m' (⟨rfl, rfl, rfl⟩ | ⟨l, rfl, hp, hl, rfl⟩)
  · rw [if_pos rfl]
    exact wp_fault (small_of_empty h hc)
  · rw [if_neg hp]
    refine wp_pure ⟨⟨⟨l, l1, hl.toCore hc.out hc.split⟩, h.peak, h.out_le, h.cap, ?_⟩, rfl⟩
    rw [Multiset.card_cons]
    omega

/-- `kfree`: a held page moves to the list, and the other holders keep their bytes. -/
theorem wp_kfree {p : Nat} (h : Pool A m (p ::ₘ P) T) :
    wp F (kfree p) m fun _ m' => Pool A m' P T ∧ SameOn (held P T) m.ram m'.ram := by
  obtain ⟨l4, l1, hc⟩ := h.core
  refine wp_mono hc.toAccounts.wp_kfree ?_
  rintro - m' ⟨hl, hsame, heq⟩
  have hpages := h.pages
  rw [Multiset.card_cons] at hpages
  refine ⟨⟨⟨p :: l4, l1, hl.toCore ?_ ?_⟩, ?_, ?_, ?_, by omega⟩, hsame⟩
  all_goals rw [heq]
  exacts [hc.out, hc.split, h.peak, h.out_le, h.cap]

/-- `kfree1k`: a held chunk moves to the list, and the other holders keep their bytes. -/
theorem wp_kfree1k {c : Nat} (h : Pool A m P (c ::ₘ T)) :
    wp F (kfree1k c) m fun _ m' => Pool A m' P T ∧ SameOn (held P T) m.ram m'.ram := by
  obtain ⟨l4, l1, hc⟩ := h.core
  refine wp_mono hc.toAccounts.wp_kfree1k ?_
  rintro - m' ⟨hl, hsame, heq⟩
  have hout := hc.out
  have hsplit := hc.split
  rw [Multiset.card_cons] at hout hsplit
  refine ⟨⟨⟨l4, c :: l1, hl.toCore ?_ ?_⟩, ?_, ?_, ?_, h.pages⟩, hsame⟩
  all_goals rw [heq]
  · show m.chunksOut - 1 = T.card
    omega
  · show 4 * m.splits = (c :: l1).length + T.card
    rw [List.length_cons]
    omega
  exacts [h.peak, (Nat.sub_le _ _).trans h.out_le, h.cap]

/-- `kalloc1k`: a chunk moves to the holders, and the other holders keep their bytes. -/
theorem wp_kalloc1k (h : Pool A m P T) (hT : T.card < A.tableBudget) :
    wp (Small A) (nonNull kalloc1k) m fun c m' =>
      Pool A m' P (c ::ₘ T) ∧ SameOn (held P T) m.ram m'.ram := by
  obtain ⟨l4, l1, hc⟩ := h.core
  refine wp_seq hc.toAccounts.wp_kalloc1k ?_
  rintro c m' (⟨rfl, rfl, rfl, rfl⟩ | ⟨l, l', -, hc₀, hl, hsame, hout, hpeak, hsplit⟩)
  · rw [if_pos rfl]
    exact wp_fault (small_of_empty h hc)
  · rw [if_neg hc₀]
    have hout₀ := hc.out
    have hsplit₀ := hc.split
    have hpeak₀ := h.peak
    have hcap := h.cap
    have hlen : 4 * m'.splits = l'.length + (T.card + 1) := by
      rcases hsplit with ⟨hs, hlen⟩ | ⟨hs, rfl, hlen⟩
      · omega
      · rw [List.length_nil] at hsplit₀
        omega
    refine wp_pure ⟨⟨⟨l, l', hl.toCore ?_ ?_⟩, ?_, ?_, ?_, h.pages⟩, hsame⟩
    · rw [Multiset.card_cons, hout, hout₀]
    · rw [Multiset.card_cons, hlen]
    · rcases hsplit with ⟨hs, -⟩ | ⟨hs, rfl, hlen'⟩ <;> omega
    · omega
    · omega

/-! ### Giving pages to the allocator -/

/-- `kalloc_init`: the whole pages of the range join the arena. -/
theorem wp_kallocInit {start stop : Nat} (A' : Arena) (h : Pool A m P T)
    (hA : A'.pages = A.pages + (pageRange start stop : Multiset Nat))
    (hpb : A'.pageBudget = A.pageBudget) (htb : A'.tableBudget = A.tableBudget)
    (hs : (start + 4095) / 4096 ≤ stop / 4096) (he : stop < 2 ^ 32) :
    wp F (kallocInit start stop) m fun _ m' =>
      Pool A' m' P T ∧ SameOn (held P T) m.ram m'.ram := by
  obtain ⟨l4, l1, hc⟩ := h.core
  have hrun : wp F (kallocInit start (u32 stop)) m _ :=
    hc.toAccounts.wp_kallocInit A'.pageSet hA (.inr he) hs (by omega) he.le
  rw [u32_of_lt he] at hrun
  refine wp_mono hrun ?_
  rintro - m' ⟨⟨l, hl⟩, hsame, heq⟩
  refine ⟨⟨⟨l, l1, hl.toCore ?_ ?_⟩, ?_, ?_, ?_, hpb ▸ h.pages⟩, hsame⟩
  all_goals rw [heq]
  exacts [hc.out, hc.split, h.peak, h.out_le, htb ▸ h.cap]

/-! ### The size of the free memory -/

/-- `get_free_memory_size` is what the holders leave of the arena. -/
theorem getFreeMemorySize_eq (h : Pool A m P T) {fuel : Nat} (hf : 2 ^ 18 < fuel) :
    getFreeMemorySize m fuel = some (1024 * (4 * A.pages.card - 4 * P.card - T.card)) := by
  obtain ⟨l4, l1, hc⟩ := h.core
  have hcard := A.card_le
  have h₀ : A.pageSet.pages.card = A.pages.card := rfl
  exact hc.toAccounts.getFreeMemorySize (by omega)

end Arunos
