import Arunos.Fs.Areas
import Arunos.Proc.Unreliable

/-!
# Proc — Program — the program a name stands for

A disk that serves its contents offers programs: `programNamed img v name` is what the file of a
name says a process is to start with — its entry point, and the bytes of its memory at every
address it may use.  No slot, page, frame or driver is left in it.

`wp_loadProgram` says that `proc_load_program` is exact at this level.  It succeeds if and only if
the name stands for a program and a slot is free for the time of the loading, and then the process
has the program's memory and its start context.  A disk that may fail can also make it fail, and
nothing else.
-/

namespace Arunos

variable {σ : Type} {L : Layout} {k k' : Kernel σ} {sp : Fin 10 → Option Space} {i j p : Fin 10}
  {s : Space} {F : Prop}

/-! ### The memory of a process -/

/-- The bytes a program may use, by their addresses. -/
abbrev UserMemory := Nat → Option UInt8

/-- The memory of a process, through its page tables: its heap and the page of its user stack. -/
def userMemory (k : Kernel σ) (i : Fin 10) : UserMemory := fun v =>
  if v < (k.processTable i).heapSize ∨ (0x7fffd000 ≤ v ∧ v < 0x7fffe000) then some (byteAt k i v)
  else none

/-- The memory of a process with the space `s`, by its pages. -/
def spaceMemory (s : Space) (r : Bytes) : UserMemory := fun v =>
  if v < 4096 * s.frames.length then some (heapBytes s.frames r v)
  else if 0x7fffd000 ≤ v ∧ v < 0x7fffe000 then some (r (s.userStack + v % 4096))
  else none

theorem spaceMemory_congr {r r' : Bytes}
    (h : ∀ p ∈ s.pages, ∀ x < 4096, r' (p + x) = r (p + x)) :
    spaceMemory s r' = spaceMemory s r := by
  funext v
  unfold spaceMemory
  by_cases hv : v < 4096 * s.frames.length
  · rw [if_pos hv, if_pos hv, heapBytes_congr (fun p hp => h p (s.frames_sub p hp)) hv]
  · rw [if_neg hv, if_neg hv, h s.userStack (s.stack_sub _ (by simp)) _ (Nat.mod_lt _ (by decide))]

theorem World.userMemory (h : World L k sp) (hi : sp i = some s) :
    userMemory k i = spaceMemory s k.mem.ram := by
  have hd := (h.slot i s hi).fields
  funext v
  unfold Arunos.userMemory spaceMemory
  rw [hd.heapSize]
  by_cases hv : v < 4096 * s.frames.length
  · rw [if_pos (.inl hv), if_pos hv, h.byteAt_heap hi hv]
  rw [if_neg hv]
  by_cases hstack : 0x7fffd000 ≤ v ∧ v < 0x7fffe000
  · obtain ⟨x, rfl⟩ := Nat.exists_eq_add_of_le hstack.1
    rw [if_pos (.inr hstack), if_pos hstack, h.byteAt_userStack hi (by omega),
      show (0x7fffd000 + x) % 4096 = x by omega]
  · rw [if_neg (by tauto), if_neg hstack]

/-- Where a process has memory. -/
theorem userMemory_ne_none {v : Nat} : userMemory k i v ≠ none ↔ UserReadable k i v := by
  unfold userMemory UserReadable
  split <;> simp_all

/-! ### Programs -/

/-- What a process starts with. -/
structure Program where
  entry : Nat
  memory : UserMemory

/-- The memory of the image that ends at `last`: whole pages from address 0 on, and a zeroed
stack. -/
def imageMemory (f : Bytes) (headers : List ElfProgramHeader) (last : Nat) : UserMemory := fun v =>
  if v < (last + 4095) / 4096 * 4096 then some (imageByte f headers v)
  else if 0x7fffd000 ≤ v ∧ v < 0x7fffe000 then some 0
  else none

/-- The program in a file of `size` bytes, if it is one. -/
def programOf (f : Bytes) (size : Nat) : Option Program :=
  let elf := ElfHeader.ofBytes (readBytes f 0 52)
  if 52 ≤ size ∧ elf.accepted = true ∧ elf.phoff ≤ size ∧ elf.phnum * 32 ≤ size - elf.phoff then
    match scanHeaders elf.entry size (programHeaders f elf) 0 false with
    | some (last, true) => some ⟨elf.entry, imageMemory f (programHeaders f elf) last⟩
    | _ => none
  else none

/-- The program a name stands for on a disk with the contents `img`. -/
def programNamed (img : Nat → Bytes) (v : Volume) (name : List UInt8) : Option Program :=
  (fileNamed img v name).bind fun file => programOf (fileByte img v file.cluster) file.size

/-- A file is a program if its headers are accepted, and then it is the image. -/
theorem programOf_eq_some {f : Bytes} {size : Nat} {prog : Program} :
    programOf f size = some prog ↔ ∃ elf last, AcceptedElf f size elf last ∧
      prog = ⟨elf.entry, imageMemory f (programHeaders f elf) last⟩ := by
  unfold programOf
  dsimp only
  constructor
  · intro h
    split at h
    next hok =>
      obtain ⟨hsize, hacc, hoff, hnum⟩ := hok
      split at h
      next last hscan =>
        cases h
        exact ⟨_, last, ⟨hsize, rfl, hacc, hoff, hnum, hscan⟩, rfl⟩
      · cases h
    · cases h
  · rintro ⟨elf, last, ⟨hsize, rfl, hacc, hoff, hnum, hscan⟩, rfl⟩
    rw [if_pos ⟨hsize, hacc, hoff, hnum⟩, hscan]

/-- Accepted headers make a checked plan. -/
theorem AcceptedElf.checked {f : Bytes} {size last : Nat} {elf : ElfHeader}
    (h : AcceptedElf f size elf last) :
    (Plan.mk elf.entry (programHeaders f elf) last).Checked size := by
  refine ⟨h.scan, ?_, fun ph hp => ?_⟩
  · rw [h.elf_eq]
    exact le32_lt _ _
  · obtain ⟨n, -, rfl⟩ := List.mem_map.mp hp
    exact ⟨le32_lt _ _, le32_lt _ _, le32_lt _ _, le32_lt _ _⟩

/-- The memory of a process with an image. -/
theorem ImageIn.userMemory {f : Bytes} {entry last : Nat} {headers : List ElfProgramHeader}
    (h : ImageIn k i f entry headers)
    (hlast : IsGreatest {n | ∃ x ∈ headers, x.type = 1 ∧ n = x.vaddr + x.memsz} last) :
    userMemory k i = imageMemory f headers last := by
  obtain ⟨last', hlast', hheap⟩ := h.heapSize
  obtain rfl := hlast'.unique hlast
  funext v
  unfold Arunos.userMemory imageMemory
  rw [← hheap]
  by_cases hv : v < (k.processTable i).heapSize
  · rw [if_pos (.inl hv), if_pos hv, h.heap v hv]
  rw [if_neg hv]
  by_cases hstack : 0x7fffd000 ≤ v ∧ v < 0x7fffe000
  · obtain ⟨x, rfl⟩ := Nat.exists_eq_add_of_le hstack.1
    rw [if_pos (.inr hstack), if_pos hstack, h.userStack x (by omega)]
  · rw [if_neg (by tauto), if_neg hstack]

theorem ImageIn.context {f : Bytes} {entry : Nat} {headers : List ElfProgramHeader}
    (h : ImageIn k i f entry headers) : (k.processTable i).context = startContext entry := by
  funext r
  by_cases h₁ : r = .CPSR
  · rw [h₁, h.mode]; rfl
  by_cases h₂ : r = .RESTART_ADDR
  · rw [h₂, h.pc]; rfl
  by_cases h₃ : r = .SP
  · rw [h₃, h.stackPointer]; rfl
  · rw [h.registers r h₁ h₂ h₃]
    cases r <;> first | rfl | contradiction

/-! ### The exchange -/

/-- The process takes over the image's memory and context, and freeing the image's slot does not
touch them. -/
theorem wp_adopt_contents {s₀ : Space} (h : World L k sp) (hne : p ≠ i) (hp : sp p = some s₀)
    (hi : sp i = some s) :
    wp F (adoptImage p i >>= fun _ => procFree i) k fun _ k' =>
      userMemory k' p = userMemory k i ∧
        (k'.processTable p).context = (k.processTable i).context := by
  refine wp_seq (wp_adoptImage hne (h.slot p s₀ hp).fields.vm (h.slot i s hi).fields.vm) ?_
  rintro - _ rfl
  have h₁ := h.adopted hne hp hi
  have hp₁ : (sp ∘ Equiv.swap p i) p = some s := by
    rw [Function.comp_apply, Equiv.swap_apply_left, hi]
  have hi₁ : (sp ∘ Equiv.swap p i) i = some s₀ := by
    rw [Function.comp_apply, Equiv.swap_apply_right, hp]
  refine wp_mono (wp_procFree h₁ hi₁) ?_
  rintro - k' ⟨m, -, h₂, hf⟩
  have hp₂ : Function.update (sp ∘ Equiv.swap p i) i none p = some s := by
    rw [Function.update_of_ne hne, hp₁]
  refine ⟨?_, ?_⟩
  · rw [h₂.userMemory hp₂, h.userMemory hi]
    exact spaceMemory_congr fun q hq x hx => hf.page h₁ hne hp₁ hq hx
  · rw [hf.table p hne (live_of_space hp₁)]
    simp [adopted, Kernel.setEntry, hne, adopting]

variable [BlockDevice σ] {fails : Prop}

/-! ### The programs of a volume -/

/-- The programs `progs` are those of the files on the volume, whatever the state of the driver.
Unless the disk may fail, a file that is there opens and is read, and the directory is read to its
end. -/
structure Provides (σ : Type) [BlockDevice σ] (v : Volume) (fails : Prop)
    (progs : List UInt8 → Option Program) : Prop where
  sound : ∀ {name : List UInt8} {d : σ} {file : FatFile}, (fatOpen v (some name) d).1 = some file →
    ∃ f, FileHas σ v file f ∧ progs name = programOf f file.size
  complete : ¬fails → ∀ {name : List UInt8}, progs name ≠ none → ∃ file f,
    (∀ d : σ, (fatOpen v (some name) d).1 = some file) ∧ FileIs σ v file f ∧
      progs name = programOf f file.size
  lists : ∀ d : σ, (dirLoop v 0 d).1 = 0 ∨ fails ∧ (dirLoop v 0 d).1 = -1

/-- `syscall_dir` comes to the end of a directory whose sectors can be read. -/
theorem dirLoop_serves {img : Nat → Bytes} {v : Volume} {n total fatSectors copies cursor : Nat}
    (hd : Serves σ img n) (g : Geometry v total fatSectors copies) (ht : total ≤ n)
    (hc : cursor ≤ v.rootEntries) (d : σ) : (dirLoop v cursor d).1 = 0 := by
  fun_induction dirLoop v cursor d with
  | case1 cursor d next entry d' hr ih =>
      have := rootEntry_slot (congrArg Prod.fst hr)
      exact ih (by omega)
  | case2 cursor d d' hr =>
      rcases rootEntry_error_iff.mp (congrArg Prod.fst hr) with h | h | ⟨j, t, needs, hfail⟩
      · rw [g.mounted] at h
        cases h
      · omega
      · exact absurd hfail (needs.readable hd g ht)
  | case3 cursor d d' hr => rfl

/-- **A disk that serves its contents provides the programs in them.** -/
theorem Serves.provides {img : Nat → Bytes} {n : Nat} (hd : Serves σ img n) {v₀ v : Volume}
    {d₀ d₁ : σ} (hm : fatInit v₀ d₀ = (true, v, d₁)) :
    Provides σ v False (programNamed img v) := by
  obtain ⟨total, fatSectors, copies, g, ht⟩ := fatInit_geometry hm
  rw [hd.count] at ht
  have hopen : ∀ name (d : σ), (fatOpen v (some name) d).1 = fileNamed img v name :=
    fun name d => fatOpen_eq_fileNamed hd g ht name d
  have hnamed : ∀ {name file}, fileNamed img v name = some file →
      FileIs σ v file (fileByte img v file.cluster) ∧
        programNamed img v name = programOf (fileByte img v file.cluster) file.size := by
    intro name file hfile
    refine ⟨.of_fatOpen hd hm (s := d₀) ((hopen name d₀).trans hfile), ?_⟩
    rw [programNamed, hfile]
    rfl
  refine ⟨fun {name d file} hfile => ?_, fun _ {name} hp => ?_, fun d => .inl ?_⟩
  · obtain ⟨hf, hprog⟩ := hnamed ((hopen name d).symm.trans hfile)
    exact ⟨_, hf.has, hprog⟩
  · cases hfile : fileNamed img v name with
    | none =>
        rw [programNamed, hfile] at hp
        exact absurd rfl hp
    | some file =>
        obtain ⟨hf, hprog⟩ := hnamed hfile
        exact ⟨file, _, fun d => (hopen name d).trans hfile, hf, hprog⟩
  · exact dirLoop_serves hd g ht (Nat.zero_le _) d

theorem dirLoop_cases (v : Volume) (cursor : Nat) (d : σ) :
    (dirLoop v cursor d).1 = 0 ∨ (dirLoop v cursor d).1 = -1 := by
  fun_induction dirLoop v cursor d with
  | case1 cursor d next entry d' hr ih => exact ih
  | case2 => exact .inr rfl
  | case3 => exact .inl rfl

/-- The volume in the contents of a disk. -/
def contentsVolume (img : Nat → Bytes) : Volume := (fatInit .zero (⟨⟩ : Perfect img)).2.1

/-- **A disk with fixed contents provides the programs in them, if it does not fail.** -/
theorem Holds.provides {img : Nat → Bytes} (hd : Holds σ img) :
    Provides σ (contentsVolume img) True (programNamed img (contentsVolume img)) := by
  refine ⟨fun {name d file} hopen => ?_, fun hreliable => absurd trivial hreliable, fun d => ?_⟩
  · -- a volume on which a name opens is mounted
    have hmounted : (contentsVolume img).mounted = true := by
      by_contra hno
      rw [fatOpen_unmounted (Bool.eq_false_iff.mpr hno)] at hopen
      cases hopen
    have hm : fatInit .zero (⟨⟩ : Perfect img) = (true, contentsVolume img, ⟨⟩) :=
      Prod.ext ((fatInit_mounted _ _).symm.trans hmounted) rfl
    have hfile := fatOpen_fileNamed hd hm hopen
    refine ⟨_, hd.fileHas hm hfile, ?_⟩
    rw [programNamed, hfile]
    rfl
  · exact (dirLoop_cases _ 0 d).imp_right fun hfail => ⟨trivial, hfail⟩

/-! ### `proc_load_program` -/

/-- A successful `proc_load_program` has found a program and a free slot, and the process is as the
program says. -/
theorem wp_procLoadProgram_image {progs : List UInt8 → Option Program} {name : List UInt8}
    {s₀ : Space} (h : World L k sp)
    (hu : ∀ i, (k.processTable i).state = .UNUSED → sp i = none) (hp : sp p = some s₀)
    (hv : Provides σ k.fat fails progs) :
    wp (Small (bootArena L)) (procLoadProgram L (some p) name) k fun ok k' => ok = true →
      firstUnused k ≠ none ∧ ∃ prog, progs name = some prog ∧ userMemory k' p = prog.memory ∧
        (k'.processTable p).context = startContext prog.entry := by
  refine wp_seq wp_openFile ?_
  rintro file _ ⟨hopen, dev, rfl⟩
  cases file with
  | none => exact wp_pure nofun
  | some file =>
      refine wp_seq (wp_procCreate (h.setDev dev) hu) ?_
      rintro image k₂ (⟨rfl, rfl, -⟩ | ⟨i, s, rfl, hcr⟩)
      · exact wp_pure nofun
      have hne : p ≠ i := slot_ne (live_of_space hp) (hu i (firstUnused_some hcr.unused))
      have hi := Function.update_self i (some s) sp
      -- the file is the one that the programs know under this name
      obtain ⟨f, hf, hprog⟩ := hv.sound hopen.symm
      have hf₂ : FileHas σ k₂.fat file f := hcr.frame.fat ▸ hf
      refine wp_seq (wp_and (wp_loadElf hcr.world hi hcr.frames hf.size_lt)
        (wp_loadElf_has hcr hf₂)) ?_
      rintro ok k₃ ⟨⟨⟨s', hl⟩, -⟩, himage⟩
      refine wp_ite (fun hok => ?_) fun _ => wp_seq (wp_procFree hl.world (Function.update_self ..))
        fun _ _ _ => wp_pure nofun
      obtain ⟨elf, plan, hof, hin⟩ := himage hok
      have hw := hl.world
      rw [Function.update_idem] at hw
      have hp' : Function.update sp i (some s') p = some s₀ := by rw [Function.update_of_ne hne, hp]
      rw [← bind_assoc]
      refine wp_seq (wp_adopt_contents hw hne hp' (Function.update_self _ _ _)) ?_
      rintro - k₄ ⟨hmem, hctx⟩
      rw [hof.entry, hof.headers] at hin
      refine wp_pure fun _ => ⟨by rw [show firstUnused k = some i from hcr.unused]; simp, ?_⟩
      refine ⟨⟨elf.entry, imageMemory f (programHeaders f elf) plan.last⟩, ?_, ?_, ?_⟩
      · rw [hprog, programOf_eq_some]
        exact ⟨elf, plan.last, hof.accepted, rfl⟩
      · rw [hmem, hin.userMemory hof.accepted.checked.greatest]
      · rw [hctx, hin.context]

/-- **`proc_load_program` is exact.**  It fails, with every process as it was, if the name stands
for no program, no slot is free or the disk fails; otherwise the process has the program. -/
theorem wp_loadProgram {progs : List UInt8 → Option Program} (name : List UInt8) {s₀ : Space}
    (h : World L k sp) (hu : ∀ i, (k.processTable i).state = .UNUSED → sp i = none)
    (hp : sp p = some s₀) (hv : Provides σ k.fat fails progs) :
    wp (Small (bootArena L)) (procLoadProgram L (some p) name) k fun ok k' =>
      (ok = false ∧ (fails ∨ progs name = none ∨ firstUnused k = none) ∧ World L k' sp ∧
        Kept sp k k') ∨
      (ok = true ∧ firstUnused k ≠ none ∧ ∃ prog s, progs name = some prog ∧
        Replaced L sp k p s k' ∧ userMemory k' p = prog.memory ∧
        (k'.processTable p).context = startContext prog.entry) := by
  refine wp_mono (wp_and (wp_procLoadProgram h hu hp) (wp_procLoadProgram_image h hu hp hv)) ?_
  rintro ok k' ⟨⟨⟨rfl, hw, hk⟩ | ⟨rfl, s, hr⟩, hloads⟩, himage⟩
  · refine .inl ⟨rfl, ?_, hw, hk⟩
    by_contra hno
    simp only [not_or] at hno
    obtain ⟨hreliable, hprog, hfree⟩ := hno
    obtain ⟨file, f, hfile, hf, hof⟩ := hv.complete hreliable hprog
    obtain ⟨prog, hsome⟩ := Option.ne_none_iff_exists'.mp hprog
    obtain ⟨elf, last, hacc, -⟩ := programOf_eq_some.mp (hof.symm.trans hsome)
    cases hloads file f elf last hfile hf hacc hfree
  · obtain ⟨hfree, prog, hprog, hmem, hctx⟩ := himage rfl
    exact .inr ⟨rfl, hfree, prog, s, hprog, hr, hmem, hctx⟩

end Arunos
