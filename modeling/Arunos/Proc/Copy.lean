import Arunos.Fs.Read
import Arunos.Proc.Exec
import Arunos.Proc.Heap
import Arunos.Proc.Lifecycle

/-!
# Proc — Copy — the copying loops of `load_elf`

The two nested loops copy the segments in rounds, and the rounds are known before the first one:
`chunks` lists them, each a part of a segment within one page.  `runChunks` goes through such a
list and also returns what each round did, an `Access`: the address it translated, the range it
filled, the place in the file it read.  `copySegments_eq` says that the loops of the source are this
run without its accesses.

`wp_runChunks` is the one result about the run.  Only frames of the heap are written, on any disk.
Every access stays within a frame and within the file.  From a file with the bytes `f`, the heap is
overwritten chunk by chunk; `foldl_chunks` puts the chunks of a segment together again.
-/

namespace Arunos

variable {σ : Type} {L : Layout} {k k' k'' : Kernel σ} {sp : Fin 10 → Option Space}
  {i : Fin 10} {F : Prop} {s : Space}

/-! ### Writes into a slot's pages -/

/-- From `k` to `k'` only the pages `Q` and the state of the disk driver change. -/
def WroteIn (Q : Multiset Nat) (k k' : Kernel σ) : Prop :=
  ∃ r dev, WritesOnly Q k.mem.ram r ∧ k' = (k.setRam r).setDev dev

namespace WroteIn

variable {Q Q' : Multiset Nat}

theorem refl (Q : Multiset Nat) (k : Kernel σ) : WroteIn Q k k :=
  ⟨k.mem.ram, k.dev, .refl _ _, rfl⟩

theorem trans (h : WroteIn Q k k') (h' : WroteIn Q k' k'') : WroteIn Q k k'' := by
  obtain ⟨r, dev, hr, rfl⟩ := h
  obtain ⟨r', dev', hr', rfl⟩ := h'
  exact ⟨r', dev', hr.trans hr', rfl⟩

theorem mono (h : WroteIn Q k k') (hQ : ∀ p ∈ Q, p ∈ Q') : WroteIn Q' k k' := by
  obtain ⟨r, dev, hr, rfl⟩ := h
  exact ⟨r, dev, hr.mono hQ, rfl⟩

theorem ram (h : WroteIn Q k k') : WritesOnly Q k.mem.ram k'.mem.ram := by
  obtain ⟨r, dev, hr, rfl⟩ := h
  exact hr

theorem processTable (h : WroteIn Q k k') : k'.processTable = k.processTable := by
  obtain ⟨r, dev, -, rfl⟩ := h
  rfl

end WroteIn

theorem Space.frames_sub (s : Space) : ∀ p ∈ (s.frames : Multiset Nat), p ∈ s.pages :=
  fun _ hp => Multiset.mem_cons_of_mem (Multiset.mem_cons_of_mem hp)

theorem Space.stack_sub (s : Space) : ∀ p ∈ ({s.kernelStack, s.userStack} : Multiset Nat),
    p ∈ s.pages := by
  intro p hp
  rcases Multiset.mem_cons.mp hp with rfl | hp
  · exact Multiset.mem_cons_self _ _
  · rw [Multiset.mem_singleton.mp hp]
    exact Multiset.mem_cons_of_mem (Multiset.mem_cons_self _ _)

/-- The slot's pages are its own. -/
theorem World.wrote (h : World L k sp) (hi : sp i = some s) (hw : WroteIn s.pages k k') :
    World L k' sp ∧ Frame i sp k k' := by
  obtain ⟨r, dev, hr, rfl⟩ := hw
  obtain ⟨h', hf⟩ := h.write hi hr
  exact ⟨h'.setDev dev, hf.setDev dev⟩

theorem World.wroteHeap (h : World L k sp) (hi : sp i = some s)
    (hw : WroteIn (s.frames : Multiset Nat) k k') : World L k' sp ∧ Frame i sp k k' :=
  h.wrote hi (hw.mono s.frames_sub)

variable [BlockDevice σ]

/-! ### Reading -/

/-- Reads inside the file succeed, and the file's bytes are `f`. -/
structure FileIs (σ : Type) [BlockDevice σ] (v : Volume) (file : FatFile) (f : Bytes) : Prop where
  size_lt : file.size < 2 ^ 32
  read : ∀ {offset length : Nat} (buffer : Nat) (mem : Bytes) (s : σ), offset ≤ file.size →
    length ≤ file.size - offset →
    (fatRead v file offset buffer length mem s).1 = true ∧
    ∀ a, (fatRead v file offset buffer length mem s).2.1 a =
      if buffer ≤ a ∧ a < buffer + length then f (offset + (a - buffer)) else mem a

/-- An opened file on a disk that serves its contents. -/
theorem FileIs.of_fatOpen {img : Nat → Bytes} {n : Nat} (hd : Serves σ img n) {v₀ v : Volume}
    {s₀ s₁ : σ} (hm : fatInit v₀ s₀ = (true, v, s₁)) {name : Option (List UInt8)} {s : σ}
    {file : FatFile} (hopen : (fatOpen v name s).1 = some file) :
    FileIs σ v file (fileByte img v file.cluster) := by
  obtain ⟨total, fatSectors, copies, g, ht⟩ := fatInit_geometry hm
  rw [hd.count] at ht
  obtain ⟨key, i, s', -, -, hentry⟩ := fatOpen_some hd.holds g hopen
  obtain ⟨hfile, -, hpos⟩ := openEntry_some hd.holds g hentry
  have hlt : file.size < 2 ^ 32 := by rw [hfile]; exact le32_lt _ _
  exact ⟨hlt, fun buffer mem s ho hl => fatRead_eq hd g ht hlt hpos ho hl buffer mem s⟩

/-- A local variable of `length` bytes after a read. -/
def readBytes (f : Bytes) (offset length : Nat) : Bytes := fun a =>
  if a < length then f (offset + a) else 0

/-- `fat_read` into a local variable; a read that leaves the file fails. -/
theorem wp_readLocal {file : FatFile} {offset length : Nat} :
    wp F (readLocal file offset length) k fun b k' =>
      (∃ dev, k' = k.setDev dev) ∧
      ∀ f, FileIs σ k.fat file f → b =
        if offset ≤ file.size ∧ length ≤ file.size - offset then some (readBytes f offset length)
        else none := by
  refine wp_get_bind (wp_set_bind (wp_pure ⟨⟨_, rfl⟩, fun f hf => ?_⟩))
  show (if (fatRead k.fat file offset 0 length (fun _ => 0) k.dev).1 then
    some (fatRead k.fat file offset 0 length (fun _ => 0) k.dev).2.1 else none) = _
  by_cases hin : offset ≤ file.size ∧ length ≤ file.size - offset
  · obtain ⟨h₁, h₂⟩ := hf.read 0 (fun _ => 0) k.dev hin.1 hin.2
    rw [if_pos hin, if_pos h₁]
    refine congrArg some (funext fun a => ?_)
    rw [h₂, readBytes]
    simp
  · rw [if_neg hin, if_neg fun h => hin (fatRead_inside h)]

/-- `fat_read` into a part of a page. -/
theorem wp_readTo {file : FatFile} {offset buffer length frame : Nat} {Q : Multiset Nat}
    (hf : frame ∈ Q) (hlo : frame ≤ buffer) (hhi : buffer + length ≤ frame + 4096) :
    wp F (readTo file offset buffer length) k fun ok k' =>
      ok = (fatRead k.fat file offset buffer length k.mem.ram k.dev).1 ∧
      k'.mem.ram = (fatRead k.fat file offset buffer length k.mem.ram k.dev).2.1 ∧
      WroteIn Q k k' := by
  refine wp_get_bind (wp_set_bind (wp_pure ⟨rfl, rfl, _, _, ?_, rfl⟩))
  exact .of_range hf hlo hhi fun a ha => fatRead_other ha

/-- A read inside the file stores its bytes. -/
theorem FileIs.stores {v : Volume} {file : FatFile} {f : Bytes} (h : FileIs σ v file f)
    {offset length : Nat} (ho : offset ≤ file.size) (hl : length ≤ file.size - offset)
    (buffer : Nat) (mem : Bytes) (dev : σ) :
    (fatRead v file offset buffer length mem dev).1 = true ∧
      (fatRead v file offset buffer length mem dev).2.1 =
        storeBytes mem buffer length fun x => f (offset + x) := by
  obtain ⟨h₁, h₂⟩ := h.read buffer mem dev ho hl
  exact ⟨h₁, funext h₂⟩

/-! ### The rounds -/

theorem chunkSize_le (ph : ElfProgramHeader) (offset : Nat) :
    chunkSize ph offset ≤ 4096 - u32 (ph.vaddr + offset) % 4096 ∧
      chunkSize ph offset ≤ ph.memsz - offset ∧
      (offset < ph.filesz → chunkSize ph offset ≤ ph.filesz - offset) := by
  simp only [chunkSize]
  split <;> omega

/-- What `load_elf` has checked of a segment: it ends in the heap, and its bytes are in the file. -/
structure SegmentFits (size heap : Nat) (ph : ElfProgramHeader) : Prop where
  memory : ph.vaddr + ph.memsz ≤ heap
  filesz : ph.filesz ≤ ph.memsz
  off : ph.off ≤ size
  file : ph.filesz ≤ size - ph.off

/-- The byte of a segment at `x` from its start: of the file, or zero after the file's part. -/
def segmentByte (f : Bytes) (ph : ElfProgramHeader) (x : Nat) : UInt8 :=
  if x < ph.filesz then f (ph.off + x) else 0

/-- A round of the loop `while (offset < ph[i].memsz)`. -/
structure Chunk where
  header : ElfProgramHeader
  offset : Nat

/-- The offsets the loop goes through. -/
def chunkOffsets (ph : ElfProgramHeader) (offset : Nat) : List Nat :=
  if _h : offset < ph.memsz then offset :: chunkOffsets ph (offset + chunkSize ph offset) else []
termination_by ph.memsz - offset
decreasing_by have := chunkSize_pos _h; omega

/-- The rounds of the two loops. -/
def chunks (l : List ElfProgramHeader) : List Chunk :=
  l.flatMap fun ph => if ph.type = 1 then (chunkOffsets ph 0).map (Chunk.mk ph) else []

theorem lt_of_mem_chunkOffsets {ph : ElfProgramHeader} {offset o : Nat}
    (h : o ∈ chunkOffsets ph offset) : o < ph.memsz := by
  fun_induction chunkOffsets ph offset with
  | case1 offset hlt ih =>
      rcases List.mem_cons.mp h with rfl | h
      · exact hlt
      · exact ih h
  | case2 => cases h

theorem mem_chunks {l : List ElfProgramHeader} {c : Chunk} (h : c ∈ chunks l) :
    c.header ∈ l ∧ c.header.type = 1 ∧ c.offset < c.header.memsz := by
  obtain ⟨ph, hp, hc⟩ := List.mem_flatMap.mp h
  split at hc
  · next ht =>
      obtain ⟨o, ho, rfl⟩ := List.mem_map.mp hc
      exact ⟨hp, ht, lt_of_mem_chunkOffsets ho⟩
  · cases hc

/-- What a round does. -/
structure Access where
  chunk : Chunk
  /-- The address that `resolve_physical_address` translates. -/
  addr : Nat
  dst : Nat
  length : Nat
  /-- The offset in the file that `fat_read` reads from; none for `memset`. -/
  source : Option Nat

/-- The access of a round, translated by the process's tables. -/
def Chunk.access (proc : Fin 10) (c : Chunk) : KM σ Access := do
  let v ← deref ((← get).processTable proc).vm
  let k ← get
  let addr := u32 (c.header.vaddr + c.offset)
  return ⟨c, addr, p2v (resolvePhysicalAddress k.mem.ram (k.processVm v) addr),
    chunkSize c.header c.offset,
    if c.offset < c.header.filesz then some (u32 (c.header.off + c.offset)) else none⟩

/-- `fat_read` or `memset`, as the access says. -/
def Access.perform (file : FatFile) (a : Access) : KM σ Bool :=
  match a.source with
  | some offset => readTo file offset a.dst a.length
  | none => do
      onMem (onRam (memset · a.dst 0 a.length))
      return true

/-- Rounds one after the other, up to the first read that fails, with their accesses. -/
def runChunks (proc : Fin 10) (file : FatFile) : List Chunk → KM σ (Bool × List Access)
  | [] => return (true, [])
  | c :: rest => do
      let a ← c.access proc
      if ← a.perform file then
        let (ok, log) ← runChunks proc file rest
        return (ok, a :: log)
      else return (false, [a])

/-- A round of the source is an access. -/
theorem copySegment_eq (proc : Fin 10) (file : FatFile) (ph : ElfProgramHeader) (offset : Nat) :
    (copySegment proc file ph offset : KM σ Bool) =
      if offset < ph.memsz then do
        let a ← Chunk.access proc ⟨ph, offset⟩
        if ← a.perform file then copySegment proc file ph (offset + chunkSize ph offset)
        else return false
      else return true := by
  rw [copySegment]
  split
  · simp only [Chunk.access, bind_assoc, pure_bind]
    refine congrArg _ (funext fun _ => congrArg _ (funext fun _ => congrArg _ (funext fun _ => ?_)))
    split
    · rfl
    · simp [Access.perform]
  · rfl

/-- The rounds of a segment come before the rest. -/
theorem copySegment_bind (proc : Fin 10) (file : FatFile) (ph : ElfProgramHeader) (offset : Nat)
    (rest : List Chunk) :
    (do if ← copySegment proc file ph offset then Prod.fst <$> runChunks proc file rest
        else return false : KM σ Bool) =
      Prod.fst <$> runChunks proc file ((chunkOffsets ph offset).map (Chunk.mk ph) ++ rest) := by
  fun_induction chunkOffsets ph offset with
  | case1 offset hlt ih =>
      rw [copySegment_eq, if_pos hlt, List.map_cons, List.cons_append, runChunks]
      simp only [bind_assoc, map_bind]
      refine congrArg _ (funext fun a => congrArg _ (funext fun ok => ?_))
      cases ok with
      | true =>
          simp only [if_true, ih, map_bind, map_pure]
          exact map_eq_pure_bind _ _
      | false => simp
  | case2 offset hend =>
      rw [copySegment_eq, if_neg hend]
      simp

/-- **The copying loops are the run of their rounds.** -/
theorem copySegments_eq (proc : Fin 10) (file : FatFile) (l : List ElfProgramHeader) :
    (copySegments proc file l : KM σ Bool) = Prod.fst <$> runChunks proc file (chunks l) := by
  induction l with
  | nil => rfl
  | cons ph l ih =>
      rw [copySegments, chunks, List.flatMap_cons]
      by_cases ht : ph.type = 1
      · rw [if_neg (not_not.mpr ht), if_pos ht, ih]
        exact copySegment_bind proc file ph 0 _
      · rw [if_pos ht, if_neg ht, List.nil_append]
        exact ih

/-! ### Contents -/

/-- The heap with a part of a segment in it. -/
def fillChunk (f : Bytes) (g : Bytes) (c : Chunk) : Bytes :=
  storeBytes g (c.header.vaddr + c.offset) (chunkSize c.header c.offset) fun x =>
    segmentByte f c.header (c.offset + x)

/-- The header is one of a segment, and the segment has the address `a`. -/
def ElfProgramHeader.Covers (ph : ElfProgramHeader) (a : Nat) : Prop :=
  ph.type = 1 ∧ ph.vaddr ≤ a ∧ a < ph.vaddr + ph.memsz

instance (ph : ElfProgramHeader) (a : Nat) : Decidable (ph.Covers a) :=
  inferInstanceAs (Decidable (_ ∧ _))

/-- The heap with a segment in it. -/
def fillSegment (f : Bytes) (g : Bytes) (ph : ElfProgramHeader) : Bytes := fun a =>
  if ph.Covers a then segmentByte f ph (a - ph.vaddr) else g a

theorem foldl_chunkOffsets (f g : Bytes) (ph : ElfProgramHeader) (offset : Nat) :
    ((chunkOffsets ph offset).map (Chunk.mk ph)).foldl (fillChunk f) g =
      storeBytes g (ph.vaddr + offset) (ph.memsz - offset) fun x =>
        segmentByte f ph (offset + x) := by
  fun_induction chunkOffsets ph offset generalizing g with
  | case1 offset hlt ih =>
      have hle := (chunkSize_le ph offset).2.1
      have happend := storeBytes_append g (ph.vaddr + offset) (chunkSize ph offset)
        (ph.memsz - (offset + chunkSize ph offset)) fun x => segmentByte f ph (offset + x)
      rw [show chunkSize ph offset + (ph.memsz - (offset + chunkSize ph offset)) =
        ph.memsz - offset by omega] at happend
      rw [List.map_cons, List.foldl_cons, ih, ← happend]
      simp only [fillChunk, Nat.add_assoc]
  | case2 offset hend =>
      rw [show ph.memsz - offset = 0 by omega, storeBytes_zero]
      rfl

/-- The chunks of a segment make the segment. -/
theorem foldl_chunks (f g : Bytes) (l : List ElfProgramHeader) :
    (chunks l).foldl (fillChunk f) g = l.foldl (fillSegment f) g := by
  induction l generalizing g with
  | nil => rfl
  | cons ph l ih =>
      rw [chunks, List.flatMap_cons, List.foldl_append, List.foldl_cons, ← ih]
      refine congrArg (fun g => (chunks l).foldl (fillChunk f) g) ?_
      funext a
      by_cases ht : ph.type = 1
      · rw [if_pos ht, foldl_chunkOffsets]
        simp only [Nat.add_zero, Nat.sub_zero, Nat.zero_add]
        exact if_congr ⟨fun h => ⟨ht, h⟩, And.right⟩ rfl rfl
      · rw [if_neg ht]
        exact (if_neg fun h => ht h.1).symm

/-- The byte of the image at `a`: of the last segment there, in the order of the headers. -/
def imageByte (f : Bytes) (l : List ElfProgramHeader) (a : Nat) : UInt8 :=
  (l.filter (·.Covers a)).getLast?.elim 0 fun ph => segmentByte f ph (a - ph.vaddr)

/-- Segments over zeroed memory. -/
theorem foldl_fillSegment (f : Bytes) (l : List ElfProgramHeader) {g : Bytes} {a : Nat}
    (hg : g a = 0) : l.foldl (fillSegment f) g a = imageByte f l a := by
  have h := foldl_overlay ElfProgramHeader.Covers (fun ph a => segmentByte f ph (a - ph.vaddr)) l
    g a
  rw [hg] at h
  exact h

/-! ### The run -/

/-- An access of a part of a segment within one frame of the heap; what it reads is in the file. -/
structure Access.Inside (frames : List Nat) (size : Nat) (a : Access) : Prop where
  addr : a.addr = a.chunk.header.vaddr + a.chunk.offset
  length : a.length = chunkSize a.chunk.header a.chunk.offset
  pos : 1 ≤ a.length
  segment : a.chunk.offset + a.length ≤ a.chunk.header.memsz
  frame : ∃ frame, frames[a.addr / 4096]? = some frame ∧ a.dst = frame + a.addr % 4096 ∧
    a.addr % 4096 + a.length ≤ 4096
  read : ∀ offset, a.source = some offset → offset = a.chunk.header.off + a.chunk.offset ∧
    offset + a.length ≤ size ∧ a.chunk.offset + a.length ≤ a.chunk.header.filesz
  zero : a.source = none → a.chunk.header.filesz ≤ a.chunk.offset

omit [BlockDevice σ] in
/-- The access of a round. -/
theorem wp_access {file : FatFile} {c : Chunk} (h : World L k sp) (hi : sp i = some s)
    (hs : SegmentFits file.size (4096 * s.frames.length) c.header) (hsize : file.size < 2 ^ 32)
    (hlt : c.offset < c.header.memsz) :
    wp F (c.access i) k fun a k' => k' = k ∧ a.chunk = c ∧ a.Inside s.frames file.size := by
  obtain ⟨ph, o⟩ := c
  obtain ⟨hmem, -, hoff, hfit⟩ := hs
  dsimp only at hmem hoff hfit hlt
  have hd := (h.slot i s hi).fields
  obtain ⟨hpage, hseg, hfile⟩ := chunkSize_le ph o
  have haddr : u32 (ph.vaddr + o) = ph.vaddr + o := u32_of_lt (by have := hd.frames; omega)
  rw [haddr] at hpage
  obtain ⟨frame, hf, -, hdst⟩ := h.resolve_heap hi (ph.vaddr + o) (by omega)
  refine wp_get_bind (wp_bind (wp_deref hd.vm (wp_get_bind (wp_pure ⟨rfl, rfl, ?_⟩))))
  dsimp only
  rw [haddr, hdst]
  refine ⟨rfl, rfl, chunkSize_pos hlt, ?_, ⟨frame, hf, rfl, ?_⟩, fun offset hread => ?_, ?_⟩
  · show o + chunkSize ph o ≤ ph.memsz
    omega
  · show (ph.vaddr + o) % 4096 + chunkSize ph o ≤ 4096
    omega
  · obtain ⟨hin, hsome⟩ := Option.ite_none_right_eq_some.mp hread
    have hin' := hfile hin
    obtain rfl := Option.some.inj hsome
    rw [u32_of_lt (show ph.off + o < 2 ^ 32 by omega)]
    refine ⟨rfl, ?_, ?_⟩
    · show ph.off + o + chunkSize ph o ≤ file.size
      omega
    · show o + chunkSize ph o ≤ ph.filesz
      omega
  · intro hzero
    by_contra hin
    rw [if_pos (Nat.lt_of_not_le hin)] at hzero
    cases hzero

/-- **An access** writes into its frame; from a file with the bytes `f` it fills its part of the
segment. -/
theorem wp_perform {file : FatFile} {a : Access} (h : World L k sp) (hi : sp i = some s)
    (ha : a.Inside s.frames file.size) :
    wp F (a.perform file) k fun ok k' =>
      WroteIn (s.frames : Multiset Nat) k k' ∧
      ∀ f, FileIs σ k.fat file f → ok = true ∧
        heapBytes s.frames k'.mem.ram = fillChunk f (heapBytes s.frames k.mem.ram) a.chunk := by
  obtain ⟨frame, hf, hdst, hfit⟩ := ha.frame
  have hmem : frame ∈ (s.frames : Multiset Nat) := List.mem_of_getElem? hf
  have hlo : frame ≤ a.dst := by omega
  have hhi : a.dst + a.length ≤ frame + 4096 := by omega
  -- whatever the bytes `b`, storing them at `dst` stores them in the heap
  have hfill : ∀ f b r, r = storeBytes k.mem.ram a.dst a.length b →
      (∀ x < a.length, b x = segmentByte f a.chunk.header (a.chunk.offset + x)) →
      heapBytes s.frames r = fillChunk f (heapBytes s.frames k.mem.ram) a.chunk := by
    rintro f b _ rfl hb
    rw [hdst, (h.apart hi).heapBytes_store hf hfit, fillChunk, ← ha.addr, ← ha.length]
    funext x
    exact if_ctx_congr Iff.rfl (fun hx => hb _ (by omega)) fun _ => rfl
  rw [Access.perform]
  split
  · next offset hsource =>
      obtain ⟨hoff, hend, hin⟩ := ha.read offset hsource
      refine wp_mono (wp_readTo hmem hlo hhi) ?_
      rintro ok k' ⟨hok, hram, hw⟩
      refine ⟨hw, fun f hfile => ?_⟩
      obtain ⟨h₁, h₂⟩ := hfile.stores (show offset ≤ file.size by omega)
        (show a.length ≤ file.size - offset by omega) a.dst k.mem.ram k.dev
      refine ⟨hok.trans h₁, hfill f _ _ (hram.trans h₂) fun x hx => ?_⟩
      rw [segmentByte, if_pos (by omega), hoff, Nat.add_assoc]
  · next hsource =>
      have hzero := ha.zero hsource
      refine wp_bind (wp_onMem (wp_modify (wp_pure ⟨⟨_, k.dev, ?_, rfl⟩, fun f _ => ⟨rfl, ?_⟩⟩)))
      · exact .of_range hmem hlo hhi fun x hx => memset_other hx
      · refine hfill f (fun _ => 0) _ (funext fun x => memset_apply _ _ _ _ _) fun x hx => ?_
        rw [segmentByte, if_neg (by omega)]

/-- **The run of the rounds.**  Only heap frames are written, by accesses inside them; from a file
with the bytes `f` the heap gets every chunk. -/
theorem wp_runChunks {file : FatFile} {l : List Chunk} (h : World L k sp) (hi : sp i = some s)
    (hsize : file.size < 2 ^ 32)
    (hl : ∀ c ∈ l, c.offset < c.header.memsz ∧
      SegmentFits file.size (4096 * s.frames.length) c.header) :
    wp F (runChunks i file l) k fun r k' =>
      WroteIn (s.frames : Multiset Nat) k k' ∧
      (∀ a ∈ r.2, a.chunk ∈ l ∧ a.Inside s.frames file.size) ∧
      ∀ f, FileIs σ k.fat file f → r.1 = true ∧
        heapBytes s.frames k'.mem.ram = l.foldl (fillChunk f) (heapBytes s.frames k.mem.ram) := by
  induction l generalizing k with
  | nil => exact wp_pure ⟨.refl _ k, by simp, fun _ _ => ⟨rfl, rfl⟩⟩
  | cons c l ih =>
      obtain ⟨hlt, hfits⟩ := hl c List.mem_cons_self
      refine wp_seq (wp_access h hi hfits hsize hlt) ?_
      rintro a _ ⟨rfl, rfl, ha⟩
      refine wp_seq (wp_perform h hi ha) ?_
      rintro ok k₁ ⟨hw, hok⟩
      obtain ⟨h₁, hframe⟩ := h.wroteHeap hi hw
      refine wp_ite (fun _ => ?_) fun hbad => wp_pure ⟨hw, ?_, fun f hf => ?_⟩
      · refine wp_seq (ih h₁ fun c hc => hl c (List.mem_cons_of_mem _ hc)) ?_
        rintro ⟨ok', log⟩ k' ⟨hw', hlog, hok'⟩
        refine wp_pure ⟨hw.trans hw', ?_, fun f hf => ?_⟩
        · rintro b (_ | ⟨_, hb⟩)
          · exact ⟨List.mem_cons_self, ha⟩
          · exact ⟨List.mem_cons_of_mem _ (hlog b hb).1, (hlog b hb).2⟩
        · obtain ⟨htrue, hbytes⟩ := hok' f (hframe.fat ▸ hf)
          rw [List.foldl_cons, ← (hok f hf).2]
          exact ⟨htrue, hbytes⟩
      · rintro b (_ | ⟨_, hb⟩)
        · exact ⟨List.mem_cons_self, ha⟩
        · cases hb
      · exact absurd (hok f hf).1 hbad

/-- A run in which no read fails makes every round, in order. -/
theorem wp_runChunks_all {file : FatFile} (l : List Chunk) (k : Kernel σ) :
    wp True (runChunks i file l) k fun r _ => r.1 = true → r.2.map (·.chunk) = l := by
  induction l generalizing k with
  | nil => exact wp_pure fun _ => rfl
  | cons c l ih =>
      have haccess : wp True (c.access i : KM σ Access) k fun a _ => a.chunk = c :=
        wp_get_bind (wp_seq (wp_trivial _ k) fun v k₁ _ => wp_get_bind (wp_pure rfl))
      refine wp_seq haccess ?_
      rintro a k₁ rfl
      refine wp_seq (wp_trivial _ k₁) fun ok k₂ _ => wp_ite (fun _ => ?_) fun _ => ?_
      · refine wp_seq (ih k₂) ?_
        rintro ⟨ok', log⟩ k₃ hlog
        exact wp_pure fun hok => congrArg (a.chunk :: ·) (hlog hok)
      · exact wp_pure fun hok => absurd hok Bool.false_ne_true

end Arunos
