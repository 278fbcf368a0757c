import Arunos.Fs.Failures
import Arunos.Proc.Image

/-!
# Proc — Unreliable — loading from a disk that may fail

`FileHas` is what is left of `FileIs` when reads may fail: those that succeed give the file's bytes.
If `load_elf` succeeds then all its reads have, and the process sees the program of the file as it
does on a disk without failures (`wp_loadElf_has`).
-/

namespace Arunos

variable {σ : Type} [BlockDevice σ] {L : Layout} {k₀ k k' : Kernel σ} {sp : Fin 10 → Option Space}
  {i : Fin 10} {s : Space} {F : Prop} {file : FatFile} {f : Bytes}

/-- Reads of the file that succeed give its bytes `f`. -/
structure FileHas (σ : Type) [BlockDevice σ] (v : Volume) (file : FatFile) (f : Bytes) : Prop where
  size_lt : file.size < 2 ^ 32
  read : ∀ {offset buffer length : Nat} {mem : Bytes} {s : σ},
    (fatRead v file offset buffer length mem s).1 = true →
    (fatRead v file offset buffer length mem s).2.1 =
      storeBytes mem buffer length fun x => f (offset + x)

theorem FileIs.has {v : Volume} (h : FileIs σ v file f) : FileHas σ v file f where
  size_lt := h.size_lt
  read hr := (h.stores (fatRead_inside hr).1 (fatRead_inside hr).2 _ _ _).2

/-- A file of a disk with fixed contents. -/
theorem Holds.fileHas {img : Nat → Bytes} (hd : Holds σ img) {v₀ v : Volume}
    (hm : fatInit v₀ (⟨⟩ : Perfect img) = (true, v, ⟨⟩)) {name : List UInt8}
    (hfile : fileNamed img v name = some file) :
    FileHas σ v file (fileByte img v file.cluster) where
  size_lt := fileNamed_size_lt hm hfile
  read hr := fatRead_fileByte hd hm hfile hr

/-! ### The headers -/

theorem wp_readLocal_has {offset length : Nat} (hf : FileHas σ k.fat file f) :
    wp F (readLocal file offset length) k fun b k' =>
      (∃ dev, k' = k.setDev dev) ∧ ∀ x, b = some x →
        (offset ≤ file.size ∧ length ≤ file.size - offset) ∧ x = readBytes f offset length := by
  refine wp_get_bind (wp_set_bind (wp_pure ⟨⟨_, rfl⟩, ?_⟩))
  intro x hx
  replace hx : (if (fatRead k.fat file offset 0 length (fun _ => 0) k.dev).1 then
    some (fatRead k.fat file offset 0 length (fun _ => 0) k.dev).2.1 else none) = some x := hx
  obtain ⟨hok, hsome⟩ := Option.ite_none_right_eq_some.mp hx
  refine ⟨fatRead_inside hok, ?_⟩
  rw [← Option.some.inj hsome, hf.read hok]
  funext a
  simp [storeBytes, readBytes]

/-- Headers that have been read and accepted are those of the file. -/
theorem wp_checkHeaders_has (hf : FileHas σ k.fat file f) :
    wp F (checkHeaders file) k fun r _ => ∀ plan, r = some plan →
      ∃ elf, plan.Of f file.size elf := by
  refine wp_seq (wp_readLocal_has hf) ?_
  rintro b _ ⟨⟨dev, rfl⟩, hb⟩
  cases b with
  | none => exact wp_pure nofun
  | some b =>
      obtain ⟨⟨-, hsize⟩, rfl⟩ := hb b rfl
      dsimp only
      generalize helf : ElfHeader.ofBytes (readBytes f 0 52) = elf
      refine wp_ite (fun _ => wp_pure nofun) fun hgood => ?_
      have hf' : FileHas σ (k.setDev dev).fat file f := hf
      refine wp_seq (wp_readLocal_has hf') ?_
      rintro b' _ ⟨⟨dev', rfl⟩, hb'⟩
      cases b' with
      | none => exact wp_pure nofun
      | some b' =>
          obtain ⟨⟨hoff, hnum⟩, rfl⟩ := hb' b' rfl
          dsimp only
          split
          · next last hscan =>
              refine wp_pure ?_
              rintro _ ⟨⟩
              exact ⟨elf, ⟨hsize, helf.symm, by simpa using hgood, hoff, hnum, hscan⟩, rfl, rfl⟩
          · exact wp_pure nofun

/-! ### The segments -/

/-- An access that succeeds fills its part of the segment. -/
theorem wp_perform_has {a : Access} (h : World L k sp) (hi : sp i = some s)
    (ha : a.Inside s.frames file.size) (hfile : FileHas σ k.fat file f) :
    wp F (a.perform file) k fun ok k' => ok = true →
      heapBytes s.frames k'.mem.ram = fillChunk f (heapBytes s.frames k.mem.ram) a.chunk := by
  obtain ⟨frame, hf, hdst, hfit⟩ := ha.frame
  have hmem : frame ∈ (s.frames : Multiset Nat) := List.mem_of_getElem? hf
  have hfill : ∀ b : Nat → UInt8,
      (∀ x < a.length, b x = segmentByte f a.chunk.header (a.chunk.offset + x)) →
      heapBytes s.frames (storeBytes k.mem.ram a.dst a.length b) =
        fillChunk f (heapBytes s.frames k.mem.ram) a.chunk := by
    intro b hb
    rw [hdst, (h.apart hi).heapBytes_store hf hfit, fillChunk, ← ha.addr, ← ha.length]
    funext x
    exact if_ctx_congr Iff.rfl (fun hx => hb _ (by omega)) fun _ => rfl
  rw [Access.perform]
  split
  · next offset hsource =>
      obtain ⟨hoff, -, hin⟩ := ha.read offset hsource
      refine wp_mono (wp_readTo hmem (by omega) (by omega)) ?_
      rintro ok k' ⟨rfl, hram, -⟩ hok
      rw [hram, hfile.read hok]
      refine hfill _ fun x hx => ?_
      rw [segmentByte, if_pos (by omega), hoff, Nat.add_assoc]
  · next hsource =>
      have hzero := ha.zero hsource
      refine wp_bind (wp_onMem (wp_modify (wp_pure fun _ => ?_)))
      have hset : memset k.mem.ram a.dst 0 a.length =
          storeBytes k.mem.ram a.dst a.length fun _ => 0 :=
        funext fun x => memset_apply _ _ _ _ _
      show heapBytes s.frames (memset k.mem.ram a.dst 0 a.length) = _
      rw [hset]
      refine hfill _ fun x hx => ?_
      rw [segmentByte, if_neg (by omega)]

/-- Rounds that all succeed fill the heap. -/
theorem wp_runChunks_has {l : List Chunk} (h : World L k sp) (hi : sp i = some s)
    (hl : ∀ c ∈ l, c.offset < c.header.memsz ∧
      SegmentFits file.size (4096 * s.frames.length) c.header)
    (hfile : FileHas σ k.fat file f) :
    wp F (runChunks i file l) k fun r k' => r.1 = true →
      heapBytes s.frames k'.mem.ram = l.foldl (fillChunk f) (heapBytes s.frames k.mem.ram) := by
  induction l generalizing k with
  | nil => exact wp_pure fun _ => rfl
  | cons c l ih =>
      obtain ⟨hlt, hfits⟩ := hl c List.mem_cons_self
      refine wp_seq (wp_access h hi hfits hfile.size_lt hlt) ?_
      rintro a _ ⟨rfl, rfl, ha⟩
      refine wp_seq (wp_and (wp_perform h hi ha) (wp_perform_has (F := F) h hi ha hfile)) ?_
      rintro ok k₁ ⟨⟨hw, -⟩, hfill⟩
      refine wp_ite (fun hok => ?_) fun _ => wp_pure nofun
      obtain ⟨h₁, hframe⟩ := h.wroteHeap hi hw
      refine wp_seq (ih h₁ (fun c hc => hl c (List.mem_cons_of_mem _ hc)) (hframe.fat ▸ hfile)) ?_
      rintro ⟨ok', log⟩ k' hrest
      refine wp_pure fun hok' => ?_
      rw [hrest hok', hfill hok, List.foldl_cons]

/-- A heap filled from the file is the image. -/
theorem wp_fillImage_has {plan : Plan} (h : World L k sp) (hi : sp i = some s)
    (hs : s.frames = []) (hplan : plan.Checked file.size) (hfile : FileHas σ k.fat file f) :
    wp (Small (bootArena L)) (fillImage i file plan) k fun r k' => r.1 = true →
      ∃ frames, World L k' (Function.update sp i (some ⟨s.kernelStack, s.userStack, frames⟩)) ∧
        ∀ a < 4096 * frames.length, heapBytes frames k'.mem.ram a = imageByte f plan.headers a := by
  obtain ⟨kernelStack, userStack, frames₀⟩ := s
  obtain rfl : frames₀ = [] := hs
  obtain ⟨-, hlast, hfits, -⟩ := scanHeaders_some hplan.scan (by decide)
  obtain ⟨hle, hpages⟩ := roundUp_page hlast
  refine wp_seq (wp_procExpandMemory h hi (show 0 + _ ≤ 256 by omega)) ?_
  rintro - k₁ ⟨frames, m, vm, hn, hg, rfl⟩
  rw [← hn] at hle hpages ⊢
  obtain ⟨h₁, hf₁⟩ := hg.world h hi (show 0 + _ ≤ 256 by omega)
  have hi₁ : Function.update sp i (some (Space.mk kernelStack userStack frames)) i =
    some ⟨kernelStack, userStack, frames⟩ := Function.update_self _ _ _
  have hl : ∀ c ∈ chunks plan.headers, c.offset < c.header.memsz ∧
      SegmentFits file.size (4096 * frames.length) c.header := by
    intro c hc
    obtain ⟨hmem, ht, hlt⟩ := mem_chunks hc
    obtain ⟨hm, h₂, h₃, h₄⟩ := hfits c.header hmem ht
    exact ⟨hlt, hm.trans hle, h₂, h₃, h₄⟩
  refine wp_seq (wp_and (wp_runChunks h₁ hi₁ hfile.size_lt hl)
    (wp_runChunks_has (F := Small (bootArena L)) h₁ hi₁ hl (hf₁.fat ▸ hfile))) ?_
  rintro ⟨ok, log⟩ k₂ ⟨⟨hw, -⟩, hfill⟩
  obtain ⟨h₂, -⟩ := h₁.wroteHeap hi₁ hw
  refine wp_ite (fun hok => ?_) fun _ => wp_pure nofun
  obtain ⟨h₃, -⟩ := h₂.setEntry (i := i)
    (p := { k₂.processTable i with entry := plan.entry, context := startContext plan.entry })
    fun s' hs' => (h₂.slot i s' hs').fields.congr rfl
  refine wp_bind (wp_setProcess (wp_pure fun _ => ⟨frames, h₃, fun a ha => ?_⟩))
  show heapBytes frames k₂.mem.ram a = _
  rw [hfill hok, foldl_chunks]
  refine foldl_fillSegment f _ ?_
  have hframe := List.getElem?_eq_getElem (show a / 4096 < frames.length by omega)
  rw [heapBytes_of_frame _ hframe]
  exact hg.zeroed _ (List.mem_of_getElem? hframe) _ (by omega) (by omega)

/-- **`load_elf` on a disk that may fail**: if it succeeds, the process sees the program of the
file. -/
theorem wp_loadElf_has (hcr : Created L sp k₀ i s k) (hf : FileHas σ k.fat file f) :
    wp (Small (bootArena L)) (loadElf i file) k fun ok k' => ok = true →
      ∃ (elf : ElfHeader) (plan : Plan), plan.Of f file.size elf ∧
        ImageIn k' i f plan.entry plan.headers := by
  have hi := Function.update_self i (some s) sp
  rw [loadElf_eq, loadElfLog]
  refine wp_map (wp_seq (wp_and wp_checkHeaders (wp_checkHeaders_has (F := True) hf)) ?_)
  rintro r _ ⟨⟨⟨dev, rfl⟩, hplan, -⟩, hof⟩
  cases r with
  | none => exact wp_pure fun hok => absurd hok Bool.false_ne_true
  | some plan =>
      obtain ⟨elf, hof⟩ := hof plan rfl
      have hf' : FileHas σ (k.setDev dev).fat file f := hf
      refine wp_map (wp_mono (wp_and
        (wp_fillImage (hcr.world.setDev dev) hi hcr.frames hf.size_lt (hplan plan rfl))
        (wp_fillImage_has (hcr.world.setDev dev) hi hcr.frames (hplan plan rfl) hf')) ?_)
      rintro r k' ⟨⟨frames, hfilled⟩, hhas⟩ hok
      obtain ⟨frames', hw, hbytes⟩ := hhas hok
      -- both are the frames of the heap
      have hframes : heapFrames k' i = frames := hfilled.world.heapFrames (Function.update_self ..)
      have hframes' : heapFrames k' i = frames' := hw.heapFrames (Function.update_self ..)
      obtain rfl : frames' = frames := hframes'.symm.trans hframes
      exact ⟨elf, plan, hof, hfilled.imageIn_of (hplan plan rfl) hcr.kernelStack hcr.userStack hok
        hbytes⟩

end Arunos
