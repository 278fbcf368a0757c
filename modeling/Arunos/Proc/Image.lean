import Arunos.Proc.Boot

/-!
# Proc — Image — what `load_elf` makes of a file

Two results about a slot that `proc_create` has just returned.

`elf_image`: if a file is loaded, the process sees exactly its program — the segments in the order
of the headers, later ones over earlier ones, zeros elsewhere in the heap and in the stacks — and
no other page is open to it.

`hostile_elf_safe`: whatever the disk returns, `load_elf` ends.  Its checks are those of the
machine's 32-bit arithmetic (`scanHeadersU32_eq`), the segments it then copies lie within 1 MiB and
within the file, and each access stays in one frame that was allocated for this image.
-/

namespace Arunos

variable {σ : Type} {L : Layout} {k₀ k k' : Kernel σ} {sp : Fin 10 → Option Space} {i : Fin 10}
  {s : Space}

/-! ### The checks -/

/-- The first loop of `load_elf` with every sum and difference taken modulo 2^32. -/
def scanHeadersU32 (entry size : Nat) : List ElfProgramHeader → Nat → Bool → Option (Nat × Bool)
  | [], last, entryFound => some (last, entryFound)
  | ph :: rest, last, entryFound =>
      if ph.type = 2 ∨ ph.type = 3 then none
      else if ph.type ≠ 1 then scanHeadersU32 entry size rest last entryFound
      else if ph.filesz > ph.memsz ∨ ph.vaddr > 0x100000 ∨
          ph.memsz > u32 (0x100000 + 2 ^ 32 - ph.vaddr) ∨
          ph.off > size ∨ ph.filesz > u32 (size + 2 ^ 32 - ph.off) then none
      else
        let last :=
          if u32 (ph.vaddr + ph.memsz) > last then u32 (ph.vaddr + ph.memsz) else last
        let entryFound :=
          if ph.flags &&& 1 ≠ 0 ∧ entry ≥ ph.vaddr ∧
            u32 (entry + 2 ^ 32 - ph.vaddr) < ph.filesz then true
          else entryFound
        scanHeadersU32 entry size rest last entryFound

/-- **Nothing wraps**: on words the loop computes what it computes on numbers. -/
theorem scanHeadersU32_eq {entry size last : Nat} {found : Bool} {l : List ElfProgramHeader}
    (hentry : entry < 2 ^ 32) (hsize : size < 2 ^ 32) (hl : ∀ ph ∈ l, ph.Words) :
    scanHeadersU32 entry size l last found = scanHeaders entry size l last found := by
  induction l generalizing last found with
  | nil => rfl
  | cons ph l ih =>
      obtain ⟨⟨hoff, hvaddr, hfilesz, hmemsz⟩, hrest⟩ := List.forall_mem_cons.mp hl
      rw [scanHeadersU32, scanHeaders]
      refine if_congr Iff.rfl rfl (if_congr Iff.rfl (ih hrest) ?_)
      refine if_ctx_congr ?_ (fun _ => rfl) fun hfit => ?_
      · simp only [u32]
        omega
      · simp only [not_or, not_lt] at hfit
        have hstop : u32 (ph.vaddr + ph.memsz) = ph.vaddr + ph.memsz := u32_of_lt (by omega)
        have hin : (entry ≥ ph.vaddr ∧ u32 (entry + 2 ^ 32 - ph.vaddr) < ph.filesz) ↔
            entry ≥ ph.vaddr ∧ entry - ph.vaddr < ph.filesz := by
          simp only [u32]
          omega
        simp only [hstop, hin]
        exact ih hrest

/-- The end of the image is the end of a segment. -/
theorem scanHeaders_last {entry size last last' : Nat} {found found' : Bool}
    {l : List ElfProgramHeader}
    (h : scanHeaders entry size l last found = some (last', found')) :
    last' = last ∨ ∃ ph ∈ l, ph.type = 1 ∧ last' = ph.vaddr + ph.memsz := by
  induction l generalizing last found with
  | nil =>
      cases h
      exact .inl rfl
  | cons ph l ih =>
      have hcons : ∀ {last}, (last' = last ∨ ∃ ph ∈ l, ph.type = 1 ∧ last' = ph.vaddr + ph.memsz) →
          last' = last ∨ ∃ x ∈ ph :: l, x.type = 1 ∧ last' = x.vaddr + x.memsz :=
        Or.imp_right fun ⟨x, hx, h'⟩ => ⟨x, List.mem_cons_of_mem ph hx, h'⟩
      rw [scanHeaders] at h
      split at h
      · cases h
      split at h
      · exact hcons (ih h)
      next ht =>
        split at h
        · cases h
        rcases hcons (ih h) with hlast | hlast
        · split at hlast
          · exact .inr ⟨ph, List.mem_cons_self, not_not.mp ht, hlast⟩
          · exact .inl hlast
        · exact .inr hlast

/-- **The image ends with its last segment.** -/
theorem Plan.Checked.greatest {plan : Plan} {size : Nat} (h : plan.Checked size) :
    IsGreatest {n | ∃ ph ∈ plan.headers, ph.type = 1 ∧ n = ph.vaddr + ph.memsz} plan.last := by
  obtain ⟨-, -, hfits, hentry⟩ := scanHeaders_some h.scan (by decide)
  refine ⟨?_, ?_⟩
  · rcases scanHeaders_last h.scan with hzero | hlast
    · rcases hentry rfl with h' | h'
      · cases h'
      · omega
    · exact hlast
  · rintro _ ⟨ph, hp, ht, rfl⟩
    exact (hfits ph hp ht).memory

variable [BlockDevice σ]

/-! ### A loaded program -/

/-- Process `i` sees the program of a file with the bytes `f` and the headers `ph`, and nothing
else; it starts at `entry` in user mode. -/
structure ImageIn (k : Kernel σ) (i : Fin 10) (f : Bytes) (entry : Nat)
    (ph : List ElfProgramHeader) : Prop where
  heapSize : ∃ last, IsGreatest {n | ∃ x ∈ ph, x.type = 1 ∧ n = x.vaddr + x.memsz} last ∧
    (k.processTable i).heapSize = (last + 4095) / 4096 * 4096
  heap : ∀ a < (k.processTable i).heapSize, byteAt k i a = imageByte f ph a
  userStack : ∀ x < 4096, byteAt k i (0x7fffd000 + x) = 0
  kernelStack : ∀ x < 4096, byteAt k i (0x7fffe000 + x) = 0
  closed : ∀ page e, descriptor k.mem.ram (vmOf k i) page = some e →
    e.accessPermissions ≠ AP_RW_D →
    page * 4096 < (k.processTable i).heapSize ∨ page = 0x7fffd ∨ page = 0x7fffe
  mode : (k.processTable i).context .CPSR = 0x10
  pc : (k.processTable i).context .RESTART_ADDR = entry
  stackPointer : (k.processTable i).context .SP = 0x7fffd000 + 4096
  registers : ∀ r, r ≠ .CPSR → r ≠ .RESTART_ADDR → r ≠ .SP → (k.processTable i).context r = 0

theorem Filled.imageIn_of {file : FatFile} {f : Bytes} {plan : Plan} {frames : List Nat}
    {r : Bool × List Access} (h : Filled L sp k i s file plan frames r k')
    (hplan : plan.Checked file.size) (hks : Zeroed k.mem.ram s.kernelStack)
    (hus : Zeroed k.mem.ram s.userStack) (hok : r.1 = true)
    (hbytes : ∀ a < 4096 * frames.length,
      heapBytes frames k'.mem.ram a = imageByte f plan.headers a) :
    ImageIn k' i f plan.entry plan.headers := by
  have hi := Function.update_self i (some (Space.mk s.kernelStack s.userStack frames)) sp
  have hslot := h.world.slot i _ hi
  have hheap : (k'.processTable i).heapSize = 4096 * frames.length := hslot.fields.heapSize
  have hctx := h.context hok
  have hzero : ∀ p ∈ s.pages, Zeroed k.mem.ram p → ∀ x < 4096, k'.mem.ram (p + x) = 0 :=
    fun p hp hz x hx => (h.stack p hp _ (by omega) (by omega)).trans (hz _ (by omega) (by omega))
  refine ⟨⟨plan.last, hplan.greatest, ?_⟩, fun a ha => ?_, fun x hx => ?_, fun x hx => ?_, ?_,
    by rw [hctx]; rfl, by rw [hctx]; rfl, by rw [hctx]; rfl, fun r h₁ h₂ h₃ => ?_⟩
  · obtain ⟨-, hlast, -⟩ := scanHeaders_some hplan.scan (by decide)
    rw [hheap, h.pages, roundUp, u32]
    omega
  · rw [hheap] at ha
    rw [h.world.byteAt_heap hi ha, hbytes a ha]
  · exact (h.world.byteAt_userStack hi hx).trans
      (hzero s.userStack (by simp [Space.pages]) hus x hx)
  · exact (h.world.byteAt_kernelStack hi hx).trans
      (hzero s.kernelStack (by simp [Space.pages]) hks x hx)
  · intro page e he hap
    rw [hslot.vmOf, hslot.walk] at he
    rcases spaceMap_some he with ⟨frame, hfr, -⟩ | ⟨hp, -⟩ | ⟨hp, -⟩ | ⟨-, hd⟩
    · obtain ⟨hlt, -⟩ := List.getElem?_eq_some_iff.mp hfr
      exact .inl (by rw [hheap]; dsimp only at hlt; omega)
    · exact .inr (.inl hp)
    · exact .inr (.inr hp)
    · exact absurd hd hap
  · rw [hctx]
    cases r <;> first | rfl | contradiction

theorem Filled.imageIn {file : FatFile} {f : Bytes} {plan : Plan} {frames : List Nat}
    {r : Bool × List Access} (h : Filled L sp k i s file plan frames r k')
    (hplan : plan.Checked file.size) (hks : Zeroed k.mem.ram s.kernelStack)
    (hus : Zeroed k.mem.ram s.userStack) (hf : FileIs σ k.fat file f) :
    ImageIn k' i f plan.entry plan.headers := by
  obtain ⟨hok, hbytes⟩ := h.contents f hf
  exact h.imageIn_of hplan hks hus hok hbytes

/-- `load_elf` in a new slot. -/
theorem wp_loadElf_image {file : FatFile} {f : Bytes} (hcr : Created L sp k₀ i s k)
    (hf : FileIs σ k.fat file f) :
    wp (Small (bootArena L)) (loadElf i file) k fun ok k' => ok = true →
      ∃ (elf : ElfHeader) (plan : Plan), plan.Of f file.size elf ∧
        ImageIn k' i f plan.entry plan.headers := by
  rw [loadElf_eq]
  refine wp_map (wp_mono (wp_loadElfLog hcr.world (Function.update_self _ _ _) hcr.frames
    hf.size_lt) ?_)
  rintro r k' (⟨rfl, -⟩ | ⟨plan, dev, frames, -, hplan, hof, hfilled⟩) hok
  · cases hok
  · obtain ⟨elf, hof⟩ := hof f hf
    exact ⟨elf, plan, hof, hfilled.imageIn hplan hcr.kernelStack hcr.userStack hf⟩

/-- **The image is correct.**  A process that `proc_create` has returned and `load_elf` has loaded
sees the program of the file, whatever the memory was before. -/
theorem elf_image (h : Owns L k₀ sp) (hcreate : (procCreate L).run k₀ = some (some i, k))
    {file : FatFile} {f : Bytes} (hf : FileIs σ k₀.fat file f)
    (hload : (loadElf i file).run k = some (true, k')) :
    ImageIn k' i f (ElfHeader.ofBytes (readBytes f 0 52)).entry
      (programHeaders f (.ofBytes (readBytes f 0 52))) := by
  rcases (wp_procCreate h.1 fun j => (h.2 j).mp).elim hcreate with ⟨hnone, -⟩ | ⟨j, s, hj, hcr⟩
  · cases hnone
  cases hj
  have hfile : FileIs σ k.fat file f := hcr.frame.fat ▸ hf
  obtain ⟨elf, plan, hof, himage⟩ := (wp_loadElf_image hcr hfile).elim hload rfl
  rw [← hof.accepted.elf_eq, ← hof.entry, ← hof.headers]
  exact himage

/-- A new process on a machine with `shellDisk`. -/
theorem exists_created : ∃ (k₀ k : Kernel shellDisk.Reader) (i : Fin 10) (s : Space),
    Owns smallLayout k₀ (fun _ => none) ∧ k₀.fat = shellVolume ∧
      (procCreate smallLayout).run k₀ = some (some i, k) ∧
      Created smallLayout (fun _ => none) k₀ i s k := by
  obtain ⟨-, k₁, -, h₁, hzero, -⟩ :=
    (wp_memoryInit (L := smallLayout) (fun _ => 0) (⟨⟩ : shellDisk.Reader)).total (by decide)
  let k₀ : Kernel shellDisk.Reader := { k₁ with fat := shellVolume }
  have h₀ : World smallLayout k₀ fun _ => none :=
    h₁.same rfl rfl rfl rfl
  have hu : ∀ j, (k₀.processTable j).state = .UNUSED := fun j => congrArg Process.state (hzero j)
  obtain ⟨r, k, hrun, ⟨-, -, hfull⟩ | ⟨i, s, rfl, hcr⟩⟩ :=
    (wp_procCreate h₀ fun _ _ => rfl).total (bootArena_roomy _)
  · exact absurd (hu 0) (firstUnused_none hfull 0)
  · exact ⟨k₀, k, i, s, ⟨h₀, by simp [hu]⟩, rfl, hrun, hcr⟩

/-- The shell of `shellDisk` is loaded, and its image is that of the file. -/
theorem elf_image_shell : ∃ (k₀ k k' : Kernel shellDisk.Reader) (i : Fin 10),
    (procCreate smallLayout).run k₀ = some (some i, k) ∧
      (loadElf i ⟨88, 2⟩).run k = some (true, k') ∧
      ImageIn k' i (fileByte shellDisk.bytes shellVolume 2) shellHeader.entry
        (programHeaders (fileByte shellDisk.bytes shellVolume 2) shellHeader) := by
  obtain ⟨k₀, k, i, s, h, hfat, hcreate, hcr⟩ := exists_created
  have hfile : FileIs shellDisk.Reader k₀.fat ⟨88, 2⟩ (fileByte shellDisk.bytes shellVolume 2) := by
    rw [hfat]
    exact .of_fatOpen shellDisk.serves fatInit_shellDisk (s := ⟨⟩) fatOpen_shellDisk
  obtain ⟨ok, k', hload, -, hok⟩ := (wp_loadElf hcr.world (Function.update_self _ _ _) hcr.frames
    hfile.size_lt).total (bootArena_roomy _)
  obtain rfl := hok _ _ _ (hcr.frame.fat ▸ hfile) shellElf_accepted
  exact ⟨k₀, k, k', i, hcreate, hload, elf_image h hcreate hfile hload⟩

/-! ### Any file -/

/-- What `load_elf` has established of a segment before it copies: it lies in the first MiB and in
the file, and the sums do not wrap. -/
structure ElfProgramHeader.InBounds (size : Nat) (ph : ElfProgramHeader) : Prop where
  memory : u32 (ph.vaddr + ph.memsz) = ph.vaddr + ph.memsz ∧ ph.vaddr + ph.memsz ≤ 0x100000
  file : u32 (ph.off + ph.filesz) = ph.off + ph.filesz ∧ ph.off + ph.filesz ≤ size

theorem Plan.Checked.inBounds {plan : Plan} {size : Nat} (h : plan.Checked size)
    (hsize : size < 2 ^ 32) {ph : ElfProgramHeader} (hp : ph ∈ plan.headers) (ht : ph.type = 1) :
    ph.InBounds size := by
  obtain ⟨-, hlast, hfits, -⟩ := scanHeaders_some h.scan (by decide)
  obtain ⟨hmem, -, hoff, hfile⟩ := hfits ph hp ht
  exact ⟨⟨u32_of_lt (by omega), by omega⟩, u32_of_lt (by omega), by omega⟩

/-- The frames of the image belong to no process there was, and are not its stacks. -/
theorem Filled.fresh {file : FatFile} {plan : Plan} {frames : List Nat}
    {r : Bool × List Access} (h : Filled L sp k i s file plan frames r k')
    (hw : World L k sp) (hi : sp i = some s) (hs : s.frames = []) {j : Fin 10} {t : Space}
    (hj : sp j = some t) {frame : Nat} (hframe : frame ∈ frames) : frame ∉ processPages k j := by
  have hi' := Function.update_self i (some (Space.mk s.kernelStack s.userStack frames)) sp
  rw [← Multiset.mem_coe, hw.processPages hj]
  intro hmem
  by_cases hji : j = i
  · subst hji
    obtain ⟨hks, hus⟩ := h.world.stack_notMem hi'
    obtain rfl := Option.some.inj (hj.symm.trans hi)
    rw [Space.pages, hs] at hmem
    rcases Multiset.mem_cons.mp hmem with rfl | hmem
    · exact hks hframe
    · exact hus (Multiset.mem_singleton.mp hmem ▸ hframe)
  · have hj' : Function.update sp i (some (Space.mk s.kernelStack s.userStack frames)) j = some t :=
      (Function.update_of_ne hji _ _).trans hj
    exact h.world.page_ne hji (mem_slotPages hi' (Space.frames_sub _ _ hframe))
      (mem_slotPages hj' hmem) rfl

/-- **A hostile file does no harm.**  On any disk `load_elf` ends.  If it comes to copying, its
checks have found each segment in bounds; the heap is made of pages that no process had; and every
access is inside one of them, inside the segment and inside the file. -/
theorem hostile_elf_safe (h : Owns L k₀ sp)
    (hcreate : (procCreate L).run k₀ = some (some i, k)) {file : FatFile}
    (hsize : file.size < 2 ^ 32) :
    ∃ ok plan log k', (loadElf i file).run k = some (ok, k') ∧
      (loadElfLog i file).run k = some ((ok, plan, log), k') ∧ (plan = none → log = []) ∧
      ∀ p, plan = some p →
        scanHeadersU32 p.entry file.size p.headers 0 false = some (p.last, true) ∧
        (∀ ph ∈ p.headers, ph.type = 1 → ph.InBounds file.size) ∧
        (∀ frame ∈ heapFrames k' i, ∀ j, (k.processTable j).state ≠ .UNUSED →
          frame ∉ processPages k j) ∧
        ∀ a ∈ log, a.chunk ∈ chunks p.headers ∧ a.Inside (heapFrames k' i) file.size := by
  rcases (wp_procCreate h.1 fun j => (h.2 j).mp).elim hcreate with ⟨hnone, -⟩ | ⟨j, s, hj, hcr⟩
  · cases hnone
  cases hj
  have hi := Function.update_self i (some s) sp
  obtain ⟨⟨ok, plan, log⟩, k', hrun, hout⟩ :=
    (wp_loadElfLog hcr.world hi hcr.frames hsize).total (bootArena_roomy L)
  have herase : (loadElf i file).run k = some (ok, k') := by
    rw [loadElf_eq, StateT.run_map, hrun]
    rfl
  refine ⟨ok, plan, log, k', herase, hrun, ?_⟩
  rcases hout with ⟨hrefused, -⟩ | ⟨p, dev, frames, hp, hplan, -, hf⟩
  · cases hrefused
    exact ⟨fun _ => rfl, nofun⟩
  obtain rfl : plan = some p := hp
  have hi' := Function.update_self i (some (Space.mk s.kernelStack s.userStack frames))
    (Function.update sp i (some s))
  have hframes : heapFrames k' i = frames := hf.world.heapFrames hi'
  refine ⟨nofun, ?_⟩
  rintro _ ⟨⟩
  rw [hframes]
  refine ⟨?_, fun ph => hplan.inBounds hsize, fun frame hframe j hj => ?_, hf.inside⟩
  · rw [scanHeadersU32_eq hplan.entry hsize hplan.words, hplan.scan]
  · have hlive : ∃ t, Function.update sp i (some s) j = some t := by
      by_cases hji : j = i
      · exact ⟨s, hji ▸ hi⟩
      · rw [Function.update_of_ne hji]
        refine Option.ne_none_iff_exists'.mp fun hnone => hj ?_
        rw [hcr.frame.unused j hji hnone]
        exact (h.2 j).mpr hnone
    obtain ⟨t, ht⟩ := hlive
    exact hf.fresh (hcr.world.setDev dev) hi hcr.frames ht hframe

/-- The shell of `shellDisk` comes to copying: its one segment is copied in one access, into a page
of its own. -/
theorem hostile_elf_safe_shell : ∃ (k₀ k k' : Kernel shellDisk.Reader) (i : Fin 10) (p : Plan)
      (a : Access),
    (procCreate smallLayout).run k₀ = some (some i, k) ∧
      (loadElfLog i ⟨88, 2⟩).run k = some ((true, some p, [a]), k') ∧
      scanHeadersU32 p.entry 88 p.headers 0 false = some (p.last, true) ∧
      a.chunk ∈ chunks p.headers ∧ a.Inside (heapFrames k' i) 88 := by
  obtain ⟨k₀, k, i, s, h, hfat, hcreate, hcr⟩ := exists_created
  obtain ⟨ok, plan, log, k', hrun, hlog, -, hsafe⟩ := hostile_elf_safe h hcreate
    (show (FatFile.mk 88 2).size < 2 ^ 32 by decide)
  have hfile : FileIs shellDisk.Reader k.fat ⟨88, 2⟩ (fileByte shellDisk.bytes shellVolume 2) := by
    rw [hcr.frame.fat, hfat]
    exact .of_fatOpen shellDisk.serves fatInit_shellDisk (s := ⟨⟩) fatOpen_shellDisk
  have hok : ok = true := ((wp_loadElf hcr.world (Function.update_self _ _ _) hcr.frames
    hfile.size_lt).elim hrun).2 _ _ _ hfile shellElf_accepted
  subst hok
  obtain ⟨p, rfl, hall⟩ := (wp_loadElfLog_all k).elim hlog rfl
  have hheaders : p.headers =
      programHeaders (fileByte shellDisk.bytes shellVolume 2) shellHeader := by
    rcases (wp_loadElfLog hcr.world (Function.update_self _ _ _) hcr.frames
      hfile.size_lt).elim hlog with ⟨hno, -⟩ | ⟨p', -, -, ⟨⟩, -, hof, -⟩
    · cases hno
    · obtain ⟨elf, hof⟩ := hof _ hfile
      rw [hof.headers, hof.accepted.elf_eq]
      rfl
  have hone : (chunks p.headers).length = 1 := by
    rw [hheaders]
    decide +kernel
  obtain ⟨a, rfl⟩ := List.length_eq_one_iff.mp
    ((List.length_map _).symm.trans ((congrArg List.length hall).trans hone))
  obtain ⟨hscan, -, -, hinside⟩ := hsafe p rfl
  exact ⟨k₀, k, k', i, p, a, hcreate, hlog, hscan, hinside a List.mem_cons_self⟩

end Arunos
