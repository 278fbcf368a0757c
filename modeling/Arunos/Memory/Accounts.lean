import Arunos.Memory.Kalloc
import Mathlib.Data.Multiset.Bind
import Mathlib.Data.Multiset.Range
import Mathlib.Algebra.Order.Group.Multiset

/-!
# Memory — Accounts — the two free lists and the blocks that are out

Memory is accounted for in 1K chunks; a page is four of them.  A `PageSet` is what `kalloc_init` was
given.  `Accounts S m P T l4 l1` says that the lists of `m` are `l4` and `l1`, and that the chunks
of the pages on the first, the chunks on the second, the chunks of the held pages `P` and the held
chunks `T` are, counted with multiplicity, exactly the chunks of `S`.  No chunk of `S` occurs twice,
so no two of these blocks overlap.

Each call of the allocator moves one block between a list and the holders, and keeps every byte of
the other holders (`SameOn`).  An allocation fails exactly when there is nothing on the lists, and
then leaves the state as it was.
-/

namespace Arunos

/-! ### Chunks -/

/-- The four chunks of a page. -/
def pageChunks (p : Nat) : Multiset Nat := {p, p + 1024, p + 2048, p + 3072}

/-- The chunk an address lies in. -/
def chunkOf (a : Nat) : Nat := a / 1024 * 1024

theorem mem_pageChunks {p c : Nat} :
    c ∈ pageChunks p ↔ c = p ∨ c = p + 1024 ∨ c = p + 2048 ∨ c = p + 3072 := by
  simp [pageChunks]

theorem chunkOf_mem_pageChunks {p a : Nat} (hp : p % 1024 = 0) :
    chunkOf a ∈ pageChunks p ↔ p ≤ a ∧ a < p + 4096 := by
  rw [mem_pageChunks, chunkOf]
  omega

theorem chunkOf_eq {c a : Nat} (hc : c % 1024 = 0) : chunkOf a = c ↔ c ≤ a ∧ a < c + 1024 := by
  rw [chunkOf]
  omega

@[simp] theorem card_pageChunks (p : Nat) : (pageChunks p).card = 4 := rfl

theorem card_bind_pageChunks (P : Multiset Nat) : (P.bind pageChunks).card = 4 * P.card := by
  rw [Multiset.card_bind, Function.comp_def]
  simp [Nat.mul_comm]

/-- Different pages of 32-bit memory, without the null page. -/
structure PageSet where
  pages : Multiset Nat
  nodup : pages.Nodup
  aligned : ∀ p ∈ pages, p % 4096 = 0
  pos : ∀ p ∈ pages, 0 < p
  below : ∀ p ∈ pages, p + 4096 ≤ 2 ^ 32

namespace PageSet

variable {S : PageSet} {c : Nat}

/-- The chunks of the pages. -/
def chunks (S : PageSet) : Multiset Nat := S.pages.bind pageChunks

theorem mem_chunks : c ∈ S.chunks ↔ c % 1024 = 0 ∧ c / 4096 * 4096 ∈ S.pages := by
  simp only [chunks, Multiset.mem_bind, mem_pageChunks]
  constructor
  · rintro ⟨p, hp, h⟩
    have := S.aligned p hp
    refine ⟨by omega, ?_⟩
    rwa [show c / 4096 * 4096 = p by omega]
  · rintro ⟨h, hp⟩
    exact ⟨_, hp, by omega⟩

theorem chunk_aligned (h : c ∈ S.chunks) : c % 1024 = 0 := (mem_chunks.mp h).1

theorem chunk_pos (h : c ∈ S.chunks) : 0 < c := by
  have := S.pos _ (mem_chunks.mp h).2
  omega

theorem chunk_lt (h : c ∈ S.chunks) : c < 2 ^ 32 := by
  have := S.below _ (mem_chunks.mp h).2
  omega

theorem chunks_nodup (S : PageSet) : S.chunks.Nodup := by
  refine Multiset.nodup_bind.mpr ⟨fun p _ => by simp [pageChunks], ?_⟩
  refine S.nodup.pairwise fun p hp q hq hne => ?_
  refine Multiset.disjoint_left.mpr fun {c} h₁ h₂ => ?_
  have := S.aligned p hp
  have := S.aligned q hq
  rw [mem_pageChunks] at h₁ h₂
  omega

theorem card_chunks (S : PageSet) : S.chunks.card = 4 * S.pages.card := card_bind_pageChunks _

/-- Some of the pages. -/
def sub (S : PageSet) (Q : Multiset Nat) (hQ : Q ≤ S.pages) : PageSet where
  pages := Q
  nodup := Multiset.nodup_of_le hQ S.nodup
  aligned p hp := S.aligned p (Multiset.mem_of_le hQ hp)
  pos p hp := S.pos p (Multiset.mem_of_le hQ hp)
  below p hp := S.below p (Multiset.mem_of_le hQ hp)

theorem card_lt (S : PageSet) : S.pages.card < 2 ^ 20 := by
  have hmap : (S.pages.map (· / 4096)).Nodup :=
    Multiset.Nodup.map_on (fun p hp q hq e => by
      have := S.aligned p hp
      have := S.aligned q hq
      omega) S.nodup
  have hsub : S.pages.map (· / 4096) ⊆ Multiset.map (1 + ·) (Multiset.range (2 ^ 20 - 1)) := by
    intro n hn
    obtain ⟨p, hp, rfl⟩ := Multiset.mem_map.mp hn
    have := S.pos p hp
    have := S.aligned p hp
    have := S.below p hp
    exact Multiset.mem_map.mpr ⟨p / 4096 - 1, Multiset.mem_range.mpr (by omega), by omega⟩
  have := Multiset.card_le_card ((Multiset.le_iff_subset hmap).mpr hsub)
  rw [Multiset.card_map, Multiset.card_map, Multiset.card_range] at this
  omega

end PageSet

/-- The whole pages of `[start, stop)`. -/
def pageRange (start stop : Nat) : List Nat :=
  (List.range' ((start + 4095) / 4096) (stop / 4096 - (start + 4095) / 4096)).map (4096 * ·)

theorem mem_pageRange {start stop p : Nat} :
    p ∈ pageRange start stop ↔ p % 4096 = 0 ∧ start ≤ p ∧ p + 4096 ≤ stop := by
  simp only [pageRange, List.mem_map, List.mem_range'_1]
  constructor
  · rintro ⟨n, hn, rfl⟩
    omega
  · intro h
    exact ⟨p / 4096, by omega, by omega⟩

theorem pageRange_nodup (start stop : Nat) : (pageRange start stop).Nodup :=
  List.Nodup.map (fun _ _ h => Nat.eq_of_mul_eq_mul_left (by decide) h) List.nodup_range'

theorem length_pageRange (start stop : Nat) :
    (pageRange start stop).length = stop / 4096 - (start + 4095) / 4096 := by
  rw [pageRange, List.length_map, List.length_range']

/-! ### What the holders have -/

/-- The chunks of the held pages `P` and the held chunks `T`. -/
def held (P T : Multiset Nat) : Multiset Nat := P.bind pageChunks + T

theorem held_cons_page (p : Nat) (P T : Multiset Nat) :
    held (p ::ₘ P) T = pageChunks p + held P T := by
  rw [held, held, Multiset.cons_bind, add_assoc]

theorem held_cons_chunk (c : Nat) (P T : Multiset Nat) :
    held P (c ::ₘ T) = c ::ₘ held P T := by
  rw [held, held, Multiset.add_cons]

theorem held_mono {P Q T U : Multiset Nat} (hP : ∀ p ∈ P, p ∈ Q) (hT : ∀ t ∈ T, t ∈ U) :
    ∀ c ∈ held P T, c ∈ held Q U := by
  intro c hc
  rcases Multiset.mem_add.mp hc with hc | hc
  · obtain ⟨p, hp, hcp⟩ := Multiset.mem_bind.mp hc
    exact Multiset.mem_add.mpr (.inl (Multiset.mem_bind.mpr ⟨p, hP p hp, hcp⟩))
  · exact Multiset.mem_add.mpr (.inr (hT c hc))

theorem held_add (P Q T U : Multiset Nat) : held (P + Q) (T + U) = held P T + held Q U := by
  rw [held, held, held, Multiset.add_bind, add_add_add_comm]

/-- The two memories agree on the chunks of `C`. -/
def SameOn (C : Multiset Nat) (r r' : Bytes) : Prop := ∀ a, chunkOf a ∈ C → r' a = r a

theorem SameOn.refl (C : Multiset Nat) (r : Bytes) : SameOn C r r := fun _ _ => rfl

theorem SameOn.trans {C : Multiset Nat} {r r' r'' : Bytes} (h : SameOn C r r')
    (h' : SameOn C r' r'') : SameOn C r r'' := fun a ha => (h' a ha).trans (h a ha)

theorem SameOn.mono {C D : Multiset Nat} {r r' : Bytes} (h : SameOn C r r')
    (hD : ∀ c ∈ D, c ∈ C) : SameOn D r r' := fun a ha => h a (hD _ ha)

theorem SameOn.tail {c : Nat} {P T : Multiset Nat} {r r' : Bytes}
    (h : SameOn (held P (c ::ₘ T)) r r') : SameOn (held P T) r r' :=
  h.mono (held_mono (fun _ hp => hp) fun _ => Multiset.mem_cons_of_mem)

theorem SameOn.tailPage {p : Nat} {P T : Multiset Nat} {r r' : Bytes}
    (h : SameOn (held (p ::ₘ P) T) r r') : SameOn (held P T) r r' :=
  h.mono (held_mono (fun _ => Multiset.mem_cons_of_mem) fun _ ht => ht)

/-! ### The accounts -/

/-- The lists `l4` and `l1` with the holders' `P` and `T` make up the pages of `S`. -/
structure Accounts (S : PageSet) (m : Mem) (P T : Multiset Nat) (l4 l1 : List Nat) : Prop where
  list4 : Linked m.ram m.freeList4k l4
  list1 : Linked m.ram m.freeList1k l1
  ledger : (l4 : Multiset Nat).bind pageChunks + (l1 : Multiset Nat) + held P T = S.chunks
  aligned4 : ∀ p ∈ l4, p % 4096 = 0
  alignedP : ∀ p ∈ P, p % 4096 = 0

namespace Accounts

variable {S : PageSet} {m : Mem} {P T : Multiset Nat} {l4 l1 : List Nat} {F : Prop}

theorem nodup (h : Accounts S m P T l4 l1) :
    ((l4 : Multiset Nat).bind pageChunks + (l1 : Multiset Nat) + held P T).Nodup := by
  rw [h.ledger]
  exact S.chunks_nodup

theorem held_nodup (h : Accounts S m P T l4 l1) : (held P T).Nodup :=
  (Multiset.nodup_add.mp h.nodup).2.1

theorem held_sub (h : Accounts S m P T l4 l1) {c : Nat} (hc : c ∈ held P T) : c ∈ S.chunks := by
  rw [← h.ledger]
  exact Multiset.mem_add.mpr (.inr hc)

theorem page_sub (h : Accounts S m P T l4 l1) {p c : Nat} (hp : p ∈ l4)
    (hc : c ∈ pageChunks p) : c ∈ S.chunks := by
  rw [← h.ledger]
  simp only [Multiset.mem_add, Multiset.mem_bind]
  exact .inl (.inl ⟨p, hp, hc⟩)

theorem node_sub (h : Accounts S m P T l4 l1) {c : Nat} (hc : c ∈ l4 ∨ c ∈ l1) :
    c ∈ S.chunks := by
  rcases hc with hc | hc
  · exact h.page_sub hc (mem_pageChunks.mpr (.inl rfl))
  · rw [← h.ledger]
    simp only [Multiset.mem_add]
    exact .inl (.inr hc)

/-- No holder has a chunk of a free page, nor a free chunk. -/
theorem page_not_held (h : Accounts S m P T l4 l1) {p c : Nat} (hp : p ∈ l4)
    (hc : c ∈ pageChunks p) : c ∉ held P T := fun hc' =>
  Multiset.disjoint_left.mp (Multiset.nodup_add.mp h.nodup).2.2
    (Multiset.mem_add.mpr (.inl (Multiset.mem_bind.mpr ⟨p, hp, hc⟩))) hc'

theorem node_not_held (h : Accounts S m P T l4 l1) {c : Nat} (hc : c ∈ l4 ∨ c ∈ l1) :
    c ∉ held P T := by
  rcases hc with hc | hc
  · exact h.page_not_held hc (mem_pageChunks.mpr (.inl rfl))
  · exact fun hc' => Multiset.disjoint_left.mp (Multiset.nodup_add.mp h.nodup).2.2
      (Multiset.mem_add.mpr (.inr hc)) hc'

/-- The heads of the lists are nodes or null. -/
theorem head4_lt (h : Accounts S m P T l4 l1) : m.freeList4k < 2 ^ 32 := by
  cases l4 with
  | nil => have h₀ : m.freeList4k = 0 := h.list4; omega
  | cons p l =>
      obtain ⟨hp, -, -⟩ := h.list4
      exact hp ▸ PageSet.chunk_lt (h.node_sub (.inl List.mem_cons_self))

theorem head1_lt (h : Accounts S m P T l4 l1) : m.freeList1k < 2 ^ 32 := by
  cases l1 with
  | nil => have h₀ : m.freeList1k = 0 := h.list1; omega
  | cons p l =>
      obtain ⟨hp, -, -⟩ := h.list1
      exact hp ▸ PageSet.chunk_lt (h.node_sub (.inr List.mem_cons_self))

/-- The word at a node lies in the node's chunk. -/
theorem node_word {c a : Nat} (hc : c ∈ S.chunks) (h₁ : c ≤ a) (h₂ : a < c + 4) :
    chunkOf a = c :=
  (chunkOf_eq (PageSet.chunk_aligned hc)).mpr ⟨h₁, by omega⟩

/-- Writing anywhere but into the free blocks leaves the lists alone. -/
theorem write (h : Accounts S m P T l4 l1) {r : Bytes}
    (hr : ∀ a, chunkOf a ∈ S.chunks → chunkOf a ∉ held P T → r a = m.ram a) :
    Accounts S { m with ram := r } P T l4 l1 := by
  have hnode : ∀ c, c ∈ l4 ∨ c ∈ l1 → le32 r c = le32 m.ram c := fun c hc =>
    le32_congr fun a h₁ h₂ => by
      have hword := node_word (h.node_sub hc) h₁ h₂
      exact hr a (hword ▸ h.node_sub hc) (hword ▸ h.node_not_held hc)
  exact { h with
    list4 := h.list4.congr fun c hc => hnode c (.inl hc)
    list1 := h.list1.congr fun c hc => hnode c (.inr hc) }

/-- Writing a node into a block keeps a list whose nodes are other chunks. -/
theorem push_node {head p : Nat} {l : List Nat} {r : Bytes} (hl : Linked r head l)
    (hh : head < 2 ^ 32) (hp : p ∈ S.chunks) (hsub : ∀ c ∈ l, c ∈ S.chunks) (hne : p ∉ l) :
    Linked (store32 r p head) p (p :: l) := by
  have h₁ := PageSet.chunk_pos hp
  have h₂ := PageSet.chunk_aligned hp
  refine hl.push (by omega) hh fun c hc => ?_
  have h₃ := PageSet.chunk_aligned (hsub c hc)
  have h₄ : c ≠ p := fun e => hne (e ▸ hc)
  omega

/-- Storing a word at a node outside a list keeps the list. -/
theorem store_other {head p w : Nat} {l : List Nat} {r : Bytes} (hl : Linked r head l)
    (hp : p ∈ S.chunks) (hsub : ∀ c ∈ l, c ∈ S.chunks) (hne : p ∉ l) :
    Linked (store32 r p w) head l := by
  have h₂ := PageSet.chunk_aligned hp
  refine hl.congr fun c hc => le32_store32_other ?_
  have h₃ := PageSet.chunk_aligned (hsub c hc)
  have h₄ : c ≠ p := fun e => hne (e ▸ hc)
  omega

/-- A store at a block's first word is seen in the block's first chunk alone. -/
theorem store_sameOn {p w : Nat} {r : Bytes} {C : Multiset Nat} (hp : p ∈ S.chunks)
    (hC : p ∉ C) : SameOn C r (store32 r p w) := fun a ha => by
  refine store32_other ?_
  by_contra hc
  have := node_word hp (show p ≤ a by omega) (by omega)
  exact hC (this ▸ ha)

/-- The accounts are about the memory and the lists. -/
theorem congr {m' : Mem} (h : Accounts S m P T l4 l1) (hr : m'.ram = m.ram)
    (h₄ : m'.freeList4k = m.freeList4k) (h₁ : m'.freeList1k = m.freeList1k) :
    Accounts S m' P T l4 l1 :=
  { h with list4 := by rw [hr, h₄]; exact h.list4, list1 := by rw [hr, h₁]; exact h.list1 }

/-! ### Moving one block -/

/-- Taking the first page off the list. -/
theorem pop4 {p : Nat} (h : Accounts S m P T (p :: l4) l1) :
    Accounts S { m with freeList4k := le32 m.ram m.freeList4k } (p ::ₘ P) T l4 l1 := by
  obtain ⟨hp, -, hl⟩ := h.list4
  refine { h with list4 := hp ▸ hl, ledger := ?_, aligned4 := ?_, alignedP := ?_ }
  · rw [← h.ledger, held_cons_page, ← Multiset.cons_coe, Multiset.cons_bind]
    ac_rfl
  · exact fun q hq => h.aligned4 q (List.mem_cons_of_mem _ hq)
  · intro q hq
    rcases Multiset.mem_cons.mp hq with rfl | hq
    · exact h.aligned4 q List.mem_cons_self
    · exact h.alignedP q hq

/-- Taking the first chunk off the list. -/
theorem pop1 {c : Nat} (h : Accounts S m P T l4 (c :: l1)) :
    Accounts S { m with freeList1k := le32 m.ram m.freeList1k } P (c ::ₘ T) l4 l1 := by
  obtain ⟨hc, -, hl⟩ := h.list1
  refine { h with list1 := hc ▸ hl, ledger := ?_ }
  rw [← h.ledger, held_cons_chunk, ← Multiset.cons_coe, Multiset.add_cons, Multiset.add_cons,
    Multiset.cons_add]

/-- A held page goes to the list. -/
theorem push4 {p : Nat} (h : Accounts S m (p ::ₘ P) T l4 l1) :
    Accounts S { m with ram := store32 m.ram p m.freeList4k, freeList4k := p } P T (p :: l4) l1 ∧
      SameOn (held P T) m.ram (store32 m.ram p m.freeList4k) := by
  have hpp : p ∈ pageChunks p := mem_pageChunks.mpr (.inl rfl)
  have hheld : p ∈ held (p ::ₘ P) T := by
    rw [held_cons_page]
    exact Multiset.mem_add.mpr (.inl hpp)
  have hp := h.held_sub hheld
  have hnode : ∀ d, d ∈ l4 ∨ d ∈ l1 → d ≠ p := fun d hd e => h.node_not_held hd (e ▸ hheld)
  have hnot : p ∉ held P T := by
    have hn := h.held_nodup
    rw [held_cons_page] at hn
    exact Multiset.disjoint_left.mp (Multiset.nodup_add.mp hn).2.2 hpp
  refine ⟨⟨?_, ?_, ?_, ?_, ?_⟩, store_sameOn hp hnot⟩
  · exact push_node h.list4 h.head4_lt hp (fun d hd => h.node_sub (.inl hd))
      fun hd => hnode p (.inl hd) rfl
  · exact store_other h.list1 hp (fun d hd => h.node_sub (.inr hd)) fun hd => hnode p (.inr hd) rfl
  · rw [← h.ledger, held_cons_page, ← Multiset.cons_coe, Multiset.cons_bind]
    ac_rfl
  · intro q hq
    rcases List.mem_cons.mp hq with rfl | hq
    · exact h.alignedP q (Multiset.mem_cons_self _ _)
    · exact h.aligned4 q hq
  · exact fun q hq => h.alignedP q (Multiset.mem_cons_of_mem hq)

/-- A held chunk goes to the list. -/
theorem push1 {c : Nat} (h : Accounts S m P (c ::ₘ T) l4 l1) :
    Accounts S { m with ram := store32 m.ram c m.freeList1k, freeList1k := c } P T l4 (c :: l1) ∧
      SameOn (held P T) m.ram (store32 m.ram c m.freeList1k) := by
  have hheld : c ∈ held P (c ::ₘ T) := by
    rw [held_cons_chunk]
    exact Multiset.mem_cons_self _ _
  have hc := h.held_sub hheld
  have hnode : ∀ d, d ∈ l4 ∨ d ∈ l1 → d ≠ c := fun d hd e => h.node_not_held hd (e ▸ hheld)
  have hnot : c ∉ held P T := by
    have hn := h.held_nodup
    rw [held_cons_chunk] at hn
    exact (Multiset.nodup_cons.mp hn).1
  refine ⟨⟨?_, ?_, ?_, h.aligned4, h.alignedP⟩, store_sameOn hc hnot⟩
  · exact store_other h.list4 hc (fun d hd => h.node_sub (.inl hd)) fun hd => hnode c (.inl hd) rfl
  · exact push_node h.list1 h.head1_lt hc (fun d hd => h.node_sub (.inr hd))
      fun hd => hnode c (.inr hd) rfl
  · rw [← h.ledger, held_cons_chunk, ← Multiset.cons_coe, Multiset.add_cons, Multiset.add_cons,
      Multiset.cons_add]

/-- A held page is held as four chunks. -/
theorem cut {p : Nat} (h : Accounts S m (p ::ₘ P) T l4 l1) :
    Accounts S m P (p ::ₘ (p + 1024) ::ₘ (p + 2048) ::ₘ (p + 3072) ::ₘ T) l4 l1 := by
  refine { h with ledger := ?_, alignedP := fun q hq => h.alignedP q (Multiset.mem_cons_of_mem hq) }
  have hpage : pageChunks p = p ::ₘ (p + 1024) ::ₘ (p + 2048) ::ₘ (p + 3072) ::ₘ 0 := rfl
  rw [← h.ledger, held_cons_page, hpage]
  simp only [held, Multiset.add_cons, Multiset.cons_add, zero_add]

/-- A new page goes to the list. -/
theorem grow {S' : PageSet} {p : Nat} (h : Accounts S m P T l4 l1) (hS : S'.pages = p ::ₘ S.pages) :
    Accounts S' { m with ram := store32 m.ram p m.freeList4k, freeList4k := p } P T (p :: l4) l1 ∧
      SameOn (held P T) m.ram (store32 m.ram p m.freeList4k) := by
  have hchunks : S'.chunks = pageChunks p + S.chunks := by
    rw [PageSet.chunks, hS, Multiset.cons_bind]
    rfl
  -- the page counts as held first
  have hnew : Accounts S' m (p ::ₘ P) T l4 l1 := by
    refine { h with ledger := ?_, alignedP := fun q hq => ?_ }
    · rw [hchunks, ← h.ledger, held_cons_page]
      ac_rfl
    · rcases Multiset.mem_cons.mp hq with rfl | hq
      · exact S'.aligned q (hS ▸ Multiset.mem_cons_self _ _)
      · exact h.alignedP q hq
  exact hnew.push4

/-! ### The allocator -/

/-- `kalloc`. -/
theorem wp_kalloc (h : Accounts S m P T l4 l1) :
    wp F kalloc m fun p m' =>
      (l4 = [] ∧ p = NULL ∧ m' = m) ∨
      ∃ l, l4 = p :: l ∧ p ≠ NULL ∧ Accounts S m' (p ::ₘ P) T l l1 ∧
        m' = { m with freeList4k := le32 m.ram p } := by
  refine wp_get_bind ?_
  cases l4 with
  | nil =>
      have h₀ : m.freeList4k = NULL := h.list4
      rw [if_neg (by simp [h₀])]
      exact wp_pure (.inl ⟨rfl, rfl, rfl⟩)
  | cons p l4 =>
      obtain ⟨hp, hp₀, -⟩ := h.list4
      rw [if_pos (by rw [hp]; exact hp₀)]
      refine wp_set_bind (wp_pure (.inr ⟨l4, by rw [hp], hp ▸ hp₀, ?_, rfl⟩))
      exact hp ▸ h.pop4

/-- `kfree`. -/
theorem wp_kfree {p : Nat} (h : Accounts S m (p ::ₘ P) T l4 l1) :
    wp F (kfree p) m fun _ m' => Accounts S m' P T (p :: l4) l1 ∧ SameOn (held P T) m.ram m'.ram ∧
      m' = { m with ram := m'.ram, freeList4k := p } := by
  obtain ⟨hpush, hsame⟩ := h.push4
  exact wp_get_bind (wp_bind (wp_modify_bind (wp_pure (wp_modify ⟨hpush, hsame, rfl⟩))))

/-- `kfree1k`. -/
theorem wp_kfree1k {c : Nat} (h : Accounts S m P (c ::ₘ T) l4 l1) :
    wp F (kfree1k c) m fun _ m' => Accounts S m' P T l4 (c :: l1) ∧
      SameOn (held P T) m.ram m'.ram ∧
      m' = { m with ram := m'.ram, freeList1k := c, chunksOut := m.chunksOut - 1 } := by
  obtain ⟨hpush, hsame⟩ := h.push1
  exact wp_get_bind (wp_bind (wp_modify_bind (wp_pure (wp_modify
    ⟨hpush.congr rfl rfl rfl, hsame, rfl⟩))))

/-- The first half of `kalloc1k`: a page is cut into four chunks if there is no chunk. -/
theorem wp_refill1k (h : Accounts S m P T l4 l1) :
    wp F refill1k m fun _ m' =>
      (l4 = [] ∧ l1 = [] ∧ m' = m) ∨ (l1 ≠ [] ∧ m' = m) ∨
      ∃ p l, l1 = [] ∧ l4 = p :: l ∧
        Accounts S m' P T l [p + 3072, p + 2048, p + 1024, p] ∧ SameOn (held P T) m.ram m'.ram ∧
        m'.splits = m.splits + 1 ∧ m'.chunksOut = m.chunksOut ∧ m'.peakChunks = m.peakChunks := by
  refine wp_get_bind (wp_ite (fun h₀ => ?_) fun h₀ => wp_pure (.inr (.inl ⟨?_, rfl⟩)))
  · obtain rfl : l1 = [] := h.list1.head_eq_zero.mp h₀
    refine wp_seq h.wp_kalloc ?_
    rintro p m' (⟨rfl, rfl, rfl⟩ | ⟨l, rfl, hp₀, hl, rfl⟩)
    · rw [if_neg (by simp)]
      exact wp_pure (.inl ⟨rfl, rfl, rfl⟩)
    · rw [if_pos hp₀]
      -- the page's chunks are held until the four calls give them to the list
      refine wp_modify_bind ?_
      have hcut : Accounts S { m with
          freeList4k := le32 m.ram p, splits := m.splits + 1, chunksOut := m.chunksOut + 4 } P
          (p ::ₘ (p + 1024) ::ₘ (p + 2048) ::ₘ (p + 3072) ::ₘ T) l [] :=
        hl.cut.congr rfl rfl rfl
      refine wp_seq hcut.wp_kfree1k ?_
      rintro - m₁ ⟨h₁, e₁, c₁⟩
      refine wp_seq h₁.wp_kfree1k ?_
      rintro - m₂ ⟨h₂, e₂, c₂⟩
      refine wp_seq h₂.wp_kfree1k ?_
      rintro - m₃ ⟨h₃, e₃, c₃⟩
      refine wp_mono h₃.wp_kfree1k ?_
      rintro - m₄ ⟨h₄, e₄, c₄⟩
      refine .inr (.inr ⟨p, l, rfl, rfl, h₄, ?_, ?_, ?_, ?_⟩)
      · exact ((e₁.tail.tail.tail.trans e₂.tail.tail).trans e₃.tail).trans e₄
      · rw [c₄, c₃, c₂, c₁]
      · rw [c₄, c₃, c₂, c₁]
        rfl
      · rw [c₄, c₃, c₂, c₁]
  · exact fun he => h₀ (h.list1.head_eq_zero.mpr he)

/-- `kalloc1k`. -/
theorem wp_kalloc1k (h : Accounts S m P T l4 l1) :
    wp F kalloc1k m fun c m' =>
      (l4 = [] ∧ l1 = [] ∧ c = NULL ∧ m' = m) ∨
      ∃ l l', ¬ (l4 = [] ∧ l1 = []) ∧ c ≠ NULL ∧ Accounts S m' P (c ::ₘ T) l l' ∧
        SameOn (held P T) m.ram m'.ram ∧ m'.chunksOut = m.chunksOut + 1 ∧
        m'.peakChunks = max m.peakChunks (m.chunksOut + 1) ∧
        ((m'.splits = m.splits ∧ l1.length = l'.length + 1) ∨
          (m'.splits = m.splits + 1 ∧ l1 = [] ∧ l'.length = 3)) := by
  refine wp_seq h.wp_refill1k ?_
  rintro - m' (⟨rfl, rfl, rfl⟩ | ⟨hne, rfl⟩ | ⟨p, l, rfl, rfl, hl, hsame, hsplit, hout, hpeak⟩)
  · have h₀ : m'.freeList1k = NULL := h.list1
    refine wp_get_bind ?_
    rw [if_neg (by simp [h₀])]
    exact wp_pure (.inl ⟨rfl, rfl, rfl, rfl⟩)
  · cases l1 with
    | nil => exact absurd rfl hne
    | cons c l1 =>
        obtain ⟨hc, hc₀, -⟩ := h.list1
        refine wp_get_bind ?_
        rw [if_pos (by rw [hc]; exact hc₀)]
        refine wp_set_bind (wp_pure (.inr ⟨l4, l1, by simp, hc ▸ hc₀, ?_, .refl _ _, rfl, rfl,
          .inl ⟨rfl, rfl⟩⟩))
        rw [hc]
        exact h.pop1.congr rfl rfl (by rw [hc])
  · obtain ⟨hc, hc₀, -⟩ := hl.list1
    refine wp_get_bind ?_
    rw [if_pos (by rw [hc]; exact hc₀)]
    refine wp_set_bind (wp_pure (.inr ⟨l, [p + 2048, p + 1024, p], by simp, hc ▸ hc₀, ?_, hsame,
      by rw [← hout], by rw [← hout, ← hpeak], .inr ⟨hsplit, rfl, rfl⟩⟩))
    rw [hc]
    exact hl.pop1.congr rfl rfl (by rw [hc])

/-- `kalloc_init`: the whole pages of the range join the set.  The end of a range that reaches the
end of memory is passed as 0. -/
theorem wp_kallocInit {start stop : Nat} (S' : PageSet) (h : Accounts S m P T l4 l1)
    (hS : S'.pages = S.pages + (pageRange start stop : Multiset Nat))
    (h₀ : 0 < start ∨ stop < 2 ^ 32) (hs : (start + 4095) / 4096 ≤ stop / 4096)
    (hstart : start + 4095 < 2 ^ 32) (he : stop ≤ 2 ^ 32) :
    wp F (kallocInit start (u32 stop)) m fun _ m' =>
      (∃ l, Accounts S' m' P T l l1) ∧ SameOn (held P T) m.ram m'.ram ∧
      m' = { m with ram := m'.ram, freeList4k := m'.freeList4k } := by
  have hup : roundUp start 4096 = (start + 4095) / 4096 * 4096 := by
    rw [roundUp, u32_of_lt (by omega)]
    rfl
  have hn : pageCount (roundUp start 4096) (roundDown (u32 stop) 4096) =
      stop / 4096 - (start + 4095) / 4096 := by
    rw [pageCount, hup, roundDown, u32, u32]
    omega
  -- after `i` rounds the first `i` pages of the range are in the set
  let Q : Nat → Multiset Nat := fun i =>
    S.pages + ((List.range' ((start + 4095) / 4096) i).map (4096 * ·) : List Nat)
  have hQ : ∀ i ≤ stop / 4096 - (start + 4095) / 4096, Q i ≤ S'.pages := fun i hi => by
    rw [hS]
    refine add_le_add_right (Multiset.coe_le.mpr (List.Sublist.subperm ?_)) _
    exact (List.range'_sublist_right.mpr hi).map _
  let I : Nat → Unit → Mem → Prop := fun i _ m' => ∀ hi : Q i ≤ S'.pages,
    (∃ l, Accounts (S'.sub (Q i) hi) m' P T l l1) ∧ SameOn (held P T) m.ram m'.ram ∧
      m' = { m with ram := m'.ram, freeList4k := m'.freeList4k }
  have hI₀ : I 0 () m := fun hi => by
    have hchunks : (S'.sub (Q 0) hi).chunks = S.chunks := by
      simp [PageSet.chunks, PageSet.sub, Q]
    exact ⟨⟨l4, { h with ledger := hchunks ▸ h.ledger }⟩, .refl _ _, rfl⟩
  unfold kallocInit
  simp only [hn]
  refine wp_mono (wp_loop I hI₀ fun i _ m₁ hlt hI => ?_) fun _ m' hm => ?_
  · obtain ⟨⟨l, hl⟩, hsame, heq⟩ := hI (hQ i (by omega))
    refine wp_get_bind (wp_bind (wp_modify_bind (wp_pure (wp_modify fun hi => ?_))))
    have hpage : u32 (roundUp start 4096 + i * 4096) = 4096 * ((start + 4095) / 4096 + i) := by
      rw [hup, u32_of_lt (by omega)]
      omega
    have hgrow : (S'.sub (Q (i + 1)) hi).pages =
        u32 (roundUp start 4096 + i * 4096) ::ₘ (S'.sub (Q i) (hQ i (by omega))).pages := by
      show Q (i + 1) = _ ::ₘ Q i
      simp only [Q, List.range'_concat, List.map_append, List.map_cons, List.map_nil, hpage]
      rw [← Multiset.coe_add, ← add_assoc, Multiset.coe_singleton, add_comm,
        Multiset.singleton_add, Nat.one_mul]
    obtain ⟨hnew, hsame'⟩ := hl.grow hgrow
    refine ⟨⟨_, hnew⟩, hsame.trans hsame', ?_⟩
    rw [heq]
  · have hfull : Q (stop / 4096 - (start + 4095) / 4096) = S'.pages := hS.symm
    obtain ⟨⟨l, hl⟩, hsame, heq⟩ := hm hfull.le
    refine ⟨⟨l, { hl with ledger := ?_ }⟩, hsame, heq⟩
    exact hl.ledger.trans (congrArg (fun R => Multiset.bind R pageChunks) hfull)

/-- The blocks on the lists and the blocks that are out are all there is. -/
theorem card_eq (h : Accounts S m P T l4 l1) :
    4 * l4.length + l1.length + (4 * P.card + T.card) = 4 * S.pages.card := by
  have hcard := congrArg Multiset.card h.ledger
  simpa only [S.card_chunks, held, Multiset.card_add, card_bind_pageChunks, Multiset.coe_card]
    using hcard

/-- `get_free_memory_size` is what the holders leave. -/
theorem getFreeMemorySize (h : Accounts S m P T l4 l1) {fuel : Nat}
    (hf : 4 * S.pages.card < fuel) :
    Arunos.getFreeMemorySize m fuel = some (1024 * (4 * S.pages.card - 4 * P.card - T.card)) := by
  have hcard := h.card_eq
  have hlt := S.card_lt
  have h₁ : sumList m.ram 1024 fuel m.freeList1k 0 = some (1024 * l1.length) := by
    rw [h.list1.sumList (by omega) (by omega), Nat.zero_add]
  rw [Arunos.getFreeMemorySize, h₁, Option.bind_eq_bind, Option.bind_some,
    h.list4.sumList (by omega) (by omega)]
  congr 1
  omega

end Accounts

end Arunos
