import Arunos.Memory.Accounts
import Arunos.Support.System
import Mathlib.Order.CompletePartialOrder
import Mathlib.Order.Interval.Set.Disjoint

/-!
# Memory — Contract — the allocator under any sequence of calls

`allocator` is the allocator with its users: memory is given to it range by range, and pages and 1K
chunks are taken and given back, in any order; the users write into what they hold.  The calls are
those of `kalloc.c` on the memory; the ranges given and the blocks held are kept beside it.

`Contract` is what the users may rely on.  It holds in every state, provided that no range starts at
address 0: a page there cannot be told from the null pointer.
-/

namespace Arunos

/-! ### Blocks -/

/-- A block of memory. -/
inductive Block where
  | page (p : Nat)
  | chunk (c : Nat)

/-- The bytes of a block. -/
def Block.bytes : Block → Set Nat
  | .page p => Set.Ico p (p + 4096)
  | .chunk c => Set.Ico c (c + 1024)

/-- A block starts at a multiple of its size. -/
def Block.Aligned : Block → Prop
  | .page p => p % 4096 = 0
  | .chunk c => c % 1024 = 0

/-- The chunks of a block. -/
def Block.chunks : Block → Multiset Nat
  | .page p => pageChunks p
  | .chunk c => {c}

theorem Block.chunkOf_mem {b : Block} (h : b.Aligned) {a : Nat} :
    chunkOf a ∈ b.chunks ↔ a ∈ b.bytes := by
  cases b with
  | page p =>
      have hp : p % 4096 = 0 := h
      exact chunkOf_mem_pageChunks (by omega)
  | chunk c => exact Multiset.mem_singleton.trans (chunkOf_eq h)

/-- Some pages and some chunks, as blocks. -/
def blocks (P T : Multiset Nat) : Multiset Block := P.map .page + T.map .chunk

theorem blocks_add (P Q T U : Multiset Nat) : blocks (P + Q) (T + U) = blocks P T + blocks Q U := by
  rw [blocks, blocks, blocks, Multiset.map_add, Multiset.map_add, add_add_add_comm]

theorem blocks_bind (P T : Multiset Nat) : (blocks P T).bind Block.chunks = held P T := by
  rw [blocks, Multiset.add_bind, Multiset.bind_map, Multiset.bind_map, held]
  congr 1
  exact Multiset.bind_singleton T id |>.trans (Multiset.map_id T)

/-! ### The allocator and its users -/

/-- The memory, the ranges given to `kalloc_init`, and the pages and chunks that are held. -/
structure Allocator where
  mem : Mem
  ranges : List (Nat × Nat)
  pages : Multiset Nat
  chunks : Multiset Nat

/-- What the users do. -/
inductive AllocatorCall where
  | init (start stop : Nat)
  | kalloc
  | kalloc1k
  | kfree (page : Nat)
  | kfree1k (chunk : Nat)
  | write (ram : Bytes)

/-- Whole pages, at least one, that no range before has. -/
structure FreshRange (ranges : List (Nat × Nat)) (start stop : Nat) : Prop where
  aligned_start : start % 4096 = 0
  aligned_stop : stop % 4096 = 0
  lt : start < stop
  le : stop ≤ 2 ^ 32
  disjoint : ∀ r ∈ ranges, Disjoint (Set.Ico r.1 r.2) (Set.Ico start stop)

/-- The allocator with its users.  A range up to the end of memory is passed with the end 0. -/
def allocator : System Allocator AllocatorCall where
  init a := a.mem.freeList4k = NULL ∧ a.mem.freeList1k = NULL ∧ a.ranges = [] ∧ a.pages = 0 ∧
    a.chunks = 0
  step a e a' :=
    match e with
    | .init start stop => FreshRange a.ranges start stop ∧
        ∃ m, (kallocInit start (u32 stop)).run a.mem = some ((), m) ∧
          a' = { a with mem := m, ranges := (start, stop) :: a.ranges }
    | .kalloc => ∃ p m, Arunos.kalloc.run a.mem = some (p, m) ∧
        a' = { a with mem := m, pages := if p = NULL then a.pages else p ::ₘ a.pages }
    | .kalloc1k => ∃ c m, Arunos.kalloc1k.run a.mem = some (c, m) ∧
        a' = { a with mem := m, chunks := if c = NULL then a.chunks else c ::ₘ a.chunks }
    | .kfree page => page ∈ a.pages ∧ ∃ m, (Arunos.kfree page).run a.mem = some ((), m) ∧
        a' = { a with mem := m, pages := a.pages.erase page }
    | .kfree1k chunk => chunk ∈ a.chunks ∧ ∃ m, (Arunos.kfree1k chunk).run a.mem = some ((), m) ∧
        a' = { a with mem := m, chunks := a.chunks.erase chunk }
    | .write ram =>
        -- nothing changes in the ranges but the bytes of the blocks held
        (∀ x, (∃ r ∈ a.ranges, x ∈ Set.Ico r.1 r.2) →
          (∀ b ∈ blocks a.pages a.chunks, x ∉ b.bytes) → ram x = a.mem.ram x) ∧
        a' = { a with mem := { a.mem with ram := ram } }

/-- The range does not have the null page. -/
def NotNull (_ : Allocator) (e : AllocatorCall) (_ : Allocator) : Prop :=
  ∀ start stop, e = .init start stop → 0 < start

/-- What the users may rely on, when the pages on the 4K list are `l4` and the chunks on the 1K list
are `l1`. -/
structure Contract (a : Allocator) (l4 l1 : List Nat) : Prop where
  list4 : Linked a.mem.ram a.mem.freeList4k l4
  list1 : Linked a.mem.ram a.mem.freeList1k l1
  disjoint : (blocks l4 l1 + blocks a.pages a.chunks).Pairwise
    fun b b' => Disjoint b.bytes b'.bytes
  inside : ∀ b ∈ blocks l4 l1 + blocks a.pages a.chunks,
    ∃ r ∈ a.ranges, b.bytes ⊆ Set.Ico r.1 r.2
  aligned : ∀ b ∈ blocks l4 l1 + blocks a.pages a.chunks, b.Aligned
  free : ∀ fuel ≥ 2 ^ 22, getFreeMemorySize a.mem fuel =
    some ((a.ranges.map fun r => r.2 - r.1).sum - (4096 * a.pages.card + 1024 * a.chunks.card))
  kalloc : ∃ p m, Arunos.kalloc.run a.mem = some (p, m) ∧ (p = NULL ↔ l4 = []) ∧
    (p = NULL → m = a.mem)
  kalloc1k : ∃ c m, Arunos.kalloc1k.run a.mem = some (c, m) ∧ (c = NULL ↔ l4 = [] ∧ l1 = []) ∧
    (c = NULL → m = a.mem)

/-! ### The invariant -/

/-- The pages of some ranges. -/
def rangePages (ranges : List (Nat × Nat)) : Multiset Nat :=
  (ranges.map fun r => (pageRange r.1 r.2 : Multiset Nat)).sum

/-- The accounts balance over the pages of the ranges. -/
structure Balanced (a : Allocator) (S : PageSet) (l4 l1 : List Nat) : Prop where
  accounts : Accounts S a.mem a.pages a.chunks l4 l1
  pages : S.pages = rangePages a.ranges
  ranges : ∀ r ∈ a.ranges, r.1 % 4096 = 0 ∧ r.2 % 4096 = 0 ∧ r.1 < r.2

theorem rangePages_cons (r : Nat × Nat) (ranges : List (Nat × Nat)) :
    rangePages (r :: ranges) = (pageRange r.1 r.2 : Multiset Nat) + rangePages ranges := by
  simp [rangePages]

theorem mem_rangePages {ranges : List (Nat × Nat)} {p : Nat} :
    p ∈ rangePages ranges ↔ ∃ r ∈ ranges, p % 4096 = 0 ∧ r.1 ≤ p ∧ p + 4096 ≤ r.2 := by
  induction ranges with
  | nil => simp [rangePages]
  | cons r ranges ih =>
      rw [rangePages_cons, Multiset.mem_add, ih, Multiset.mem_coe, mem_pageRange]
      simp

theorem card_rangePages {ranges : List (Nat × Nat)}
    (h : ∀ r ∈ ranges, r.1 % 4096 = 0 ∧ r.2 % 4096 = 0 ∧ r.1 < r.2) :
    4096 * (rangePages ranges).card = (ranges.map fun r => r.2 - r.1).sum := by
  induction ranges with
  | nil => rfl
  | cons r ranges ih =>
      have ih := ih fun r hr => h r (by simp [hr])
      obtain ⟨h₁, h₂, h₃⟩ := h r (by simp)
      rw [rangePages_cons, Multiset.card_add, Multiset.coe_card, length_pageRange, List.map_cons,
        List.sum_cons, ← ih]
      omega

section Balanced

variable {a a' : Allocator} {S : PageSet} {l4 l1 : List Nat}

namespace Balanced

/-- The blocks of both lists and of the users. -/
theorem blocks_eq (a : Allocator) (l4 l1 : List Nat) :
    blocks l4 l1 + blocks a.pages a.chunks = blocks (l4 + a.pages) (l1 + a.chunks) :=
  (blocks_add _ _ _ _).symm

theorem bind_blocks (h : Balanced a S l4 l1) :
    (blocks l4 l1 + blocks a.pages a.chunks).bind Block.chunks = S.chunks := by
  rw [Multiset.add_bind, blocks_bind, blocks_bind, held]
  exact h.accounts.ledger

theorem aligned (h : Balanced a S l4 l1) :
    ∀ b ∈ blocks l4 l1 + blocks a.pages a.chunks, b.Aligned := by
  intro b hb
  have hchunks : ∀ c ∈ b.chunks, c ∈ S.chunks := fun c hc => by
    rw [← h.bind_blocks]
    exact Multiset.mem_bind.mpr ⟨b, hb, hc⟩
  rw [blocks_eq, blocks, Multiset.mem_add, Multiset.mem_map, Multiset.mem_map] at hb
  rcases hb with ⟨p, hp, rfl⟩ | ⟨c, -, rfl⟩
  · rcases Multiset.mem_add.mp hp with hp | hp
    · exact h.accounts.aligned4 p hp
    · exact h.accounts.alignedP p hp
  · exact PageSet.chunk_aligned (hchunks c (Multiset.mem_singleton_self c))

/-- The bytes of a chunk of the set are in a range. -/
theorem in_range (h : Balanced a S l4 l1) {x : Nat} (hx : chunkOf x ∈ S.chunks) :
    ∃ r ∈ a.ranges, x ∈ Set.Ico r.1 r.2 := by
  have hpage := (PageSet.mem_chunks.mp hx).2
  rw [h.pages, mem_rangePages] at hpage
  obtain ⟨r, hr, -, h₁, h₂⟩ := hpage
  refine ⟨r, hr, ?_, ?_⟩ <;> unfold chunkOf at h₁ h₂ <;> omega

/-- The first chunk of an aligned block tells its page's range, which has the whole block. -/
theorem inside (h : Balanced a S l4 l1) :
    ∀ b ∈ blocks l4 l1 + blocks a.pages a.chunks, ∃ r ∈ a.ranges, b.bytes ⊆ Set.Ico r.1 r.2 := by
  intro b hb
  have hal := h.aligned b hb
  have hchunks : ∀ c ∈ b.chunks, c ∈ S.chunks := fun c hc => by
    rw [← h.bind_blocks]
    exact Multiset.mem_bind.mpr ⟨b, hb, hc⟩
  cases b with
  | page p =>
      have hpage := (PageSet.mem_chunks.mp (hchunks p (mem_pageChunks.mpr (.inl rfl)))).2
      have hp : p % 4096 = 0 := hal
      rw [h.pages, mem_rangePages] at hpage
      obtain ⟨r, hr, -, h₁, h₂⟩ := hpage
      exact ⟨r, hr, Set.Ico_subset_Ico (by omega) (by omega)⟩
  | chunk c =>
      have hpage := (PageSet.mem_chunks.mp (hchunks c (Multiset.mem_singleton_self c))).2
      have hc : c % 1024 = 0 := hal
      rw [h.pages, mem_rangePages] at hpage
      obtain ⟨r, hr, -, h₁, h₂⟩ := hpage
      exact ⟨r, hr, Set.Ico_subset_Ico (by omega) (by omega)⟩

theorem disjoint (h : Balanced a S l4 l1) :
    (blocks l4 l1 + blocks a.pages a.chunks).Pairwise fun b b' => Disjoint b.bytes b'.bytes := by
  have hnodup := S.chunks_nodup
  rw [← h.bind_blocks, Multiset.nodup_bind] at hnodup
  obtain ⟨l, hl, hpair⟩ := hnodup.2
  refine ⟨l, hl, hpair.imp_of_mem fun {b b'} hb hb' hd => ?_⟩
  refine Set.disjoint_left.mpr fun x hx hx' => ?_
  have hal := h.aligned b (hl ▸ hb)
  have hal' := h.aligned b' (hl ▸ hb')
  exact Multiset.disjoint_left.mp hd ((Block.chunkOf_mem hal).mpr hx)
    ((Block.chunkOf_mem hal').mpr hx')

theorem contract (h : Balanced a S l4 l1) : Contract a l4 l1 := by
  refine ⟨h.accounts.list4, h.accounts.list1, h.disjoint, h.inside, h.aligned, ?_, ?_, ?_⟩
  · intro fuel hf
    have hlt := S.card_lt
    have hcard := card_rangePages h.ranges
    rw [← h.pages] at hcard
    rw [h.accounts.getFreeMemorySize (by omega), ← hcard]
    congr 1
    omega
  · obtain ⟨p, m, hrun, hp⟩ := (h.accounts.wp_kalloc (F := False)).total id
    refine ⟨p, m, hrun, ?_⟩
    rcases hp with ⟨hl, hp, hm⟩ | ⟨l, hl, hp, -⟩
    · exact ⟨⟨fun _ => hl, fun _ => hp⟩, fun _ => hm⟩
    · exact ⟨⟨fun e => absurd e hp, fun e => by rw [hl] at e; cases e⟩, fun e => absurd e hp⟩
  · obtain ⟨c, m, hrun, hc⟩ := (h.accounts.wp_kalloc1k (F := False)).total id
    refine ⟨c, m, hrun, ?_⟩
    rcases hc with ⟨hl, hl', hc, hm⟩ | ⟨l, l', hl, hc, -⟩
    · exact ⟨⟨fun _ => ⟨hl, hl'⟩, fun _ => hc⟩, fun _ => hm⟩
    · exact ⟨⟨fun e => absurd e hc, fun e => absurd e hl⟩, fun e => absurd e hc⟩

/-- The set of pages with a range that is new to it. -/
def addRange (h : Balanced a S l4 l1) {start stop : Nat} (hr : FreshRange a.ranges start stop)
    (h₀ : 0 < start) : PageSet where
  pages := S.pages + (pageRange start stop : Multiset Nat)
  nodup := by
    refine Multiset.nodup_add.mpr ⟨S.nodup, pageRange_nodup start stop, ?_⟩
    refine Multiset.disjoint_left.mpr fun {p} hp hp' => ?_
    rw [h.pages, mem_rangePages] at hp
    obtain ⟨r, hmem, -, h₁, h₂⟩ := hp
    obtain ⟨-, h₃, h₄⟩ := mem_pageRange.mp hp'
    have hp : p ∈ Set.Ico r.1 r.2 := ⟨h₁, by omega⟩
    exact Set.disjoint_left.mp (hr.disjoint r hmem) hp ⟨h₃, by omega⟩
  aligned p hp := by
    rcases Multiset.mem_add.mp hp with hp | hp
    · exact S.aligned p hp
    · exact (mem_pageRange.mp hp).1
  pos p hp := by
    rcases Multiset.mem_add.mp hp with hp | hp
    · exact S.pos p hp
    · have := mem_pageRange.mp hp
      omega
  below p hp := by
    rcases Multiset.mem_add.mp hp with hp | hp
    · exact S.below p hp
    · have := mem_pageRange.mp hp
      have := hr.le
      omega

/-- A call keeps the balance. -/
theorem step (h : Balanced a S l4 l1) {e : AllocatorCall} (hs : allocator.step a e a')
    (hn : NotNull a e a') : ∃ S' l4' l1', Balanced a' S' l4' l1' := by
  cases e with
  | init start stop =>
      obtain ⟨hr, m, hrun, rfl⟩ := hs
      have h₀ : 0 < start := hn start stop rfl
      have h₁ := hr.aligned_start
      have h₂ := hr.aligned_stop
      have h₃ := hr.lt
      have h₄ := hr.le
      have hinit := h.accounts.wp_kallocInit (F := True) (h.addRange hr h₀) rfl (.inl h₀)
        (by omega) (by omega) h₄
      obtain ⟨⟨l, hl⟩, -⟩ := hinit.elim hrun
      refine ⟨_, l, l1, hl, ?_, ?_⟩
      · rw [rangePages_cons, ← h.pages, add_comm]
        rfl
      · intro r hmem
        rcases List.mem_cons.mp hmem with rfl | hmem
        · exact ⟨h₁, h₂, h₃⟩
        · exact h.ranges r hmem
  | kalloc =>
      obtain ⟨p, m, hrun, rfl⟩ := hs
      rcases (h.accounts.wp_kalloc (F := True)).elim hrun with ⟨-, rfl, rfl⟩ | ⟨l, -, hp, hl, -⟩
      · exact ⟨S, l4, l1, h⟩
      · refine ⟨S, l, l1, ?_, h.pages, h.ranges⟩
        rw [if_neg hp]
        exact hl
  | kalloc1k =>
      obtain ⟨c, m, hrun, rfl⟩ := hs
      rcases (h.accounts.wp_kalloc1k (F := True)).elim hrun with
        ⟨-, -, rfl, rfl⟩ | ⟨l, l', -, hc, hl, -⟩
      · exact ⟨S, l4, l1, h⟩
      · refine ⟨S, l, l', ?_, h.pages, h.ranges⟩
        rw [if_neg hc]
        exact hl
  | kfree page =>
      obtain ⟨hp, m, hrun, rfl⟩ := hs
      have hacc := h.accounts
      rw [← Multiset.cons_erase hp] at hacc
      obtain ⟨hl, -⟩ := (hacc.wp_kfree (F := True)).elim hrun
      exact ⟨S, _, l1, hl, h.pages, h.ranges⟩
  | kfree1k chunk =>
      obtain ⟨hc, m, hrun, rfl⟩ := hs
      have hacc := h.accounts
      rw [← Multiset.cons_erase hc] at hacc
      obtain ⟨hl, -⟩ := (hacc.wp_kfree1k (F := True)).elim hrun
      exact ⟨S, l4, _, hl, h.pages, h.ranges⟩
  | write ram =>
      obtain ⟨hw, rfl⟩ := hs
      refine ⟨S, l4, l1, h.accounts.write fun x hx hnot => hw x (h.in_range hx) fun b hb hxb => ?_,
        h.pages, h.ranges⟩
      rw [← blocks_bind] at hnot
      exact hnot (Multiset.mem_bind.mpr ⟨b, hb, (Block.chunkOf_mem
        (h.aligned b (Multiset.mem_add.mpr (.inr hb)))).mpr hxb⟩)

end Balanced

end Balanced

/-- No pages. -/
def PageSet.empty : PageSet where
  pages := 0
  nodup := Multiset.nodup_zero
  aligned p hp := absurd hp (Multiset.notMem_zero p)
  pos p hp := absurd hp (Multiset.notMem_zero p)
  below p hp := absurd hp (Multiset.notMem_zero p)

/-- **The allocator keeps its contract.**  After any calls, as long as no range given to
`kalloc_init` starts at address 0: no two blocks on the lists or with the users overlap, all lie in
the ranges and are aligned, `get_free_memory_size` is what the users leave of the ranges, an
allocation fails exactly when there is no block for it, and a failed one changes nothing. -/
theorem allocator_contract {a : Allocator} (h : (allocator.restrict NotNull).Reachable a) :
    ∃ l4 l1, Contract a l4 l1 := by
  have hinv : ∃ S l4 l1, Balanced a S l4 l1 := by
    refine h.invariant (I := fun a => ∃ S l4 l1, Balanced a S l4 l1) ?_ ?_
    · rintro a ⟨h₄, h₁, hr, hP, hT⟩
      refine ⟨PageSet.empty, [], [], ⟨h₄, h₁, ?_, by simp, by simp [hP]⟩, ?_, by simp [hr]⟩
      · simp [hP, hT, held, PageSet.chunks, PageSet.empty]
      · simp [hr, rangePages, PageSet.empty]
    · rintro a e a' ⟨S, l4, l1, hb⟩ ⟨hs, hn⟩
      exact hb.step hs hn
  obtain ⟨S, l4, l1, hb⟩ := hinv
  exact ⟨l4, l1, hb.contract⟩

/-- The allocator before the first call. -/
def emptyAllocator : Allocator := ⟨⟨fun _ => 0, NULL, NULL, 0, 0, 0⟩, [], 0, 0⟩

/-- Two pages are given to the allocator, and one is cut into chunks; a chunk and a page are given
back, and a page is taken again. -/
def twoPageCalls : List AllocatorCall :=
  [.init 4096 12288, .kalloc, .kalloc1k, .kalloc1k, .kfree1k 7168, .kfree 8192, .kalloc]

/-- The allocator over the two pages, with some pages and chunks held. -/
def twoPages (m : Mem) (pages chunks : Multiset Nat) : Allocator :=
  ⟨m, [(4096, 12288)], pages, chunks⟩

/-- What the calls return, and the number of pages cut. -/
theorem twoPageCalls_results :
    (do
      let (_, m) ← (kallocInit 4096 (u32 12288)).run emptyAllocator.mem
      let (p, m) ← kalloc.run m
      let (c, m) ← kalloc1k.run m
      let (c', m) ← kalloc1k.run m
      let (_, m) ← (kfree1k 7168).run m
      let (_, m) ← (kfree 8192).run m
      let (p', m) ← kalloc.run m
      return (p, c, c', p', m.splits)) = some (8192, 7168, 6144, 8192, 1) := by
  decide +kernel

theorem notNull_twoPageCalls (a a' : Allocator) : ∀ e ∈ twoPageCalls, NotNull a e a' := by
  rintro e he start stop rfl
  simp only [twoPageCalls, List.mem_cons, reduceCtorEq, List.not_mem_nil, or_false,
    AllocatorCall.init.injEq] at he
  omega

/-- The calls are a run, which leaves a page and a chunk held. -/
theorem twoPageCalls_path : ∃ m, m.splits = 1 ∧
    allocator.Path emptyAllocator twoPageCalls (twoPages m {8192} {6144}) := by
  have hrun := twoPageCalls_results
  simp only [Option.bind_eq_bind, Option.bind_eq_some_iff, Option.pure_def, Option.some.injEq,
    Prod.exists, Prod.mk.injEq] at hrun
  obtain ⟨_, m₁, h₁, p, m₂, h₂, c, m₃, h₃, c', m₄, h₄, _, m₅, h₅, _, m₆, h₆, p', m₇, h₇,
    rfl, rfl, rfl, rfl, hsplits⟩ := hrun
  have hr : FreshRange [] 4096 12288 := ⟨by decide, by decide, by decide, by decide, by simp⟩
  refine ⟨m₇, hsplits, ?_⟩
  refine .cons (t := twoPages m₁ 0 0) ⟨hr, m₁, h₁, rfl⟩ ?_
  refine .cons (t := twoPages m₂ {8192} 0) ⟨8192, m₂, h₂, rfl⟩ ?_
  refine .cons (t := twoPages m₃ {8192} {7168}) ⟨7168, m₃, h₃, rfl⟩ ?_
  refine .cons (t := twoPages m₄ {8192} {6144, 7168}) ⟨6144, m₄, h₄, rfl⟩ ?_
  refine .cons (t := twoPages m₅ {8192} {6144}) ⟨by simp [twoPages], m₅, h₅, rfl⟩ ?_
  refine .cons (t := twoPages m₆ 0 {6144}) ⟨by simp [twoPages], m₆, h₆, rfl⟩ ?_
  exact .cons ⟨8192, m₇, h₇, rfl⟩ (.nil _)

/-- The contract after allocations, a split and frees, with a page and a chunk held: the rest of the
page that was cut is what is free. -/
theorem allocator_contract_two_pages :
    ∃ m, m.splits = 1 ∧
      allocator.Path emptyAllocator twoPageCalls (twoPages m {8192} {6144}) ∧
      (∃ l4 l1, Contract (twoPages m {8192} {6144}) l4 l1) ∧
      ∀ fuel ≥ 2 ^ 22, getFreeMemorySize m fuel = some 3072 := by
  obtain ⟨m, hsplits, hpath⟩ := twoPageCalls_path
  have hinit : (allocator.restrict NotNull).Reachable emptyAllocator :=
    .init ⟨rfl, rfl, rfl, rfl, rfl⟩
  obtain ⟨l4, l1, hc⟩ := allocator_contract (hinit.path (hpath.restrict notNull_twoPageCalls))
  refine ⟨m, hsplits, hpath, ⟨l4, l1, hc⟩, fun fuel hf => ?_⟩
  simpa [twoPages] using hc.free fuel hf

/-- The allocator that has been given one range. -/
def oneRange (start stop : Nat) (m : Mem) : Allocator := ⟨m, [(start, stop)], 0, 0⟩

/-- The null page is lost when it is given to the allocator: none of its bytes counts as free. -/
theorem allocator_loses_null_page :
    ∃ m, allocator.Reachable (oneRange 0 4096 m) ∧
      (∀ fuel ≥ 2 ^ 22, getFreeMemorySize m fuel = some 0) ∧
      ¬ ∃ l4 l1, Contract (oneRange 0 4096 m) l4 l1 := by
  have hinit : allocator.Reachable emptyAllocator := .init ⟨rfl, rfl, rfl, rfl, rfl⟩
  have hr : FreshRange [] 0 4096 := ⟨by decide, by decide, by decide, by decide, by simp⟩
  -- the page's own address becomes the head of the list, and that is the empty list
  obtain ⟨ram, hm⟩ : ∃ ram, (kallocInit 0 (u32 4096)).run emptyAllocator.mem =
      some ((), ⟨ram, NULL, NULL, 0, 0, 0⟩) := ⟨_, rfl⟩
  have hfree : ∀ fuel ≥ 2 ^ 22, getFreeMemorySize ⟨ram, NULL, NULL, 0, 0, 0⟩ fuel = some 0 := by
    intro fuel hf
    obtain ⟨fuel, rfl⟩ : ∃ n, fuel = n + 1 := ⟨fuel - 1, by omega⟩
    simp [getFreeMemorySize, sumList, NULL]
  refine ⟨_, hinit.step (e := .init 0 4096) ⟨hr, _, hm, rfl⟩, hfree, ?_⟩
  rintro ⟨l4, l1, hc⟩
  have h₁ := hc.free (2 ^ 22) le_rfl
  simp only [oneRange] at h₁
  rw [hfree _ le_rfl] at h₁
  simp at h₁

end Arunos
