import Arunos.Proc.Copy

/-!
# Proc — Load — loading a program keeps the world

`load_elf` works in a slot of its own.  It checks the file's headers (`checkHeaders`) and then grows
the slot's heap and copies the segments into it (`fillImage`); `loadElf_eq` says that these two are
the function of the source.  Every other slot is framed (`wp_loadElf`).  `proc_load_program` is then
one of two things (`wp_procLoadProgram`): it returns false and every slot in use is as it was, or
it returns true and the process has the new image, with everything else framed.

The disk is arbitrary and each read may fail.  `FileIs` says when the disk cannot get in the way:
reads inside the file succeed and give the file's bytes.  Then a file with accepted headers
(`AcceptedElf`) is loaded if a slot is free, and the heap is the image (`Filled`).
-/

namespace Arunos

variable {σ : Type} {L : Layout} {k k' k'' : Kernel σ} {sp : Fin 10 → Option Space}
  {i p : Fin 10} {F : Prop} {s : Space}

/-! ### The exchange -/

/-- The fields the process takes from the image. -/
def adopting (p q : Process) : Process :=
  { p with
    heapSize := q.heapSize, kernelStack := q.kernelStack, userStack := q.userStack,
    entry := q.entry, context := q.context, state := .READY }

/-- The fields the image takes from the process. -/
def discarding (q p : Process) : Process :=
  { q with heapSize := p.heapSize, kernelStack := p.kernelStack, userStack := p.userStack }

/-- The kernel after the exchange. -/
def adopted (k : Kernel σ) (p i : Fin 10) : Kernel σ :=
  ({ k with processVm := k.processVm ∘ Equiv.swap p i }.setEntry p
    (adopting (k.processTable p) (k.processTable i))).setEntry i
    (discarding (k.processTable i) (k.processTable p))

theorem wp_adoptImage (hne : p ≠ i) (hp : (k.processTable p).vm = some p)
    (hi : (k.processTable i).vm = some i) :
    wp F (adoptImage p i) k fun _ k' => k' = adopted k p i := by
  refine wp_get_bind (wp_bind (wp_deref hp (wp_bind (wp_deref hi (wp_modify_bind ?_)))))
  refine wp_bind (wp_setProcess (wp_setProcess ?_))
  have hswap : Function.update (Function.update k.processVm p (k.processVm i)) i (k.processVm p) =
      k.processVm ∘ Equiv.swap p i := by
    rw [Equiv.swap_comm, Equiv.comp_swap_eq_update]
  have hent : ∀ k' : Kernel σ, ∀ q, (k'.setEntry p q).processTable i = k'.processTable i :=
    fun k' q => Function.update_of_ne hne.symm _ _
  rw [hent, hswap]
  rfl

/-- The two slots have exchanged their spaces. -/
theorem World.adopted (h : World L k sp) {s₀ : Space} (hne : p ≠ i) (hp : sp p = some s₀)
    (hi : sp i = some s) : World L (adopted k p i) (sp ∘ Equiv.swap p i) := by
  have hdp := (h.slot p s₀ hp).fields
  have hdi := (h.slot i s hi).fields
  refine ⟨?_, fun j t hj => ?_, h.kernelInside, h.kernelWalk⟩
  · have hpages : allPages (sp ∘ Equiv.swap p i) = allPages sp :=
      Equiv.sum_comp (Equiv.swap p i) fun j => slotPages (sp j)
    have htables : allTables (Arunos.adopted k p i) (sp ∘ Equiv.swap p i) = allTables k sp :=
      congrArg (tables k.kernelVm + ·)
        (Equiv.sum_comp (Equiv.swap p i) fun j => slotTables (k.processVm j) (sp j))
    rw [hpages, htables]
    exact h.pool
  · rw [Function.comp_apply] at hj
    have hs := h.slot _ t hj
    refine ⟨?_, hs.inside, hs.walk⟩
    by_cases hji : j = i
    · subst hji
      rw [Equiv.swap_apply_right, hp] at hj
      cases hj
      have e : (Arunos.adopted k p j).processTable j =
        discarding (k.processTable j) (k.processTable p) := Function.update_self _ _ _
      rw [e]
      exact ⟨hdi.pid, hdi.vm, hdp.kernelStack, hdp.userStack, hdp.heapSize, hdp.frames⟩
    by_cases hjp : j = p
    · subst hjp
      rw [Equiv.swap_apply_left, hi] at hj
      cases hj
      have e : (Arunos.adopted k j i).processTable j =
          adopting (k.processTable j) (k.processTable i) := by
        simp [Arunos.adopted, Kernel.setEntry, hne]
      rw [e]
      exact ⟨hdp.pid, hdp.vm, hdi.kernelStack, hdi.userStack, hdi.heapSize, hdi.frames⟩
    · rw [Equiv.swap_apply_of_ne_of_ne hjp hji] at hs
      have e : (Arunos.adopted k p i).processTable j = k.processTable j := by
        simp [Arunos.adopted, Kernel.setEntry, hji, hjp]
      rw [e]
      exact hs.fields

/-! ### What loading does -/

/-- `load_elf` worked in slot `i`: the slot has the space `s'`, the others are framed. -/
structure Loaded (L : Layout) (sp : Fin 10 → Option Space) (k : Kernel σ) (i : Fin 10) (s' : Space)
    (ok : Bool) (k' : Kernel σ) : Prop where
  world : World L k' (Function.update sp i (some s'))
  frame : Frame i sp k k'
  state : (k'.processTable i).state = (k.processTable i).state
  context : ok = true → ∃ entry < 0x100000, (k'.processTable i).context = startContext entry

/-- Nothing that belongs to a slot in use or to the kernel changes, and no slot comes into use. -/
structure Kept (sp : Fin 10 → Option Space) (k k' : Kernel σ) : Prop where
  table : ∀ j, sp j ≠ none → k'.processTable j = k.processTable j
  vms : ∀ j, sp j ≠ none → k'.processVm j = k.processVm j
  unused : ∀ j, sp j = none → (k'.processTable j).state = (k.processTable j).state
  kernelVm : k'.kernelVm = k.kernelVm
  current : k'.currentProcess = k.currentProcess
  ttb : k'.ttb = k.ttb
  round : k'.roundRobinIndex = k.roundRobinIndex
  fat : k'.fat = k.fat
  ram : SameOn (held (allPages sp) (allTables k sp)) k.mem.ram k'.mem.ram

theorem Frame.kept (h : Frame i sp k k') (hi : sp i = none)
    (hs : (k'.processTable i).state = (k.processTable i).state) : Kept sp k k' := by
  have hne : ∀ j, sp j ≠ none → j ≠ i := fun _ hj => slot_ne hj hi
  refine ⟨fun j hj => h.table j (hne j hj) hj, fun j hj => h.vms j (hne j hj) hj, fun j hj => ?_,
    h.kernelVm, h.current, h.ttb, h.round, h.fat, ?_⟩
  · by_cases hji : j = i
    · rw [hji, hs]
    · exact h.unused j hji hj
  · rw [allPages_eq i, allTables_eq i, hi, slotPages, slotTables, zero_add, zero_add]
    exact h.ram

/-- The process in slot `p` has got the space `s` and a program to start; the rest is framed. -/
structure Replaced (L : Layout) (sp : Fin 10 → Option Space) (k : Kernel σ) (p : Fin 10) (s : Space)
    (k' : Kernel σ) : Prop where
  world : World L k' (Function.update sp p (some s))
  frame : Frame p sp k k'
  state : (k'.processTable p).state = .READY
  waitPid : (k'.processTable p).waitPid = (k.processTable p).waitPid
  context : ∃ entry < 0x100000, (k'.processTable p).context = startContext entry

/-- After the exchange the image's slot is freed. -/
theorem wp_adopt_free {k₀ : Kernel σ} {s₀ : Space} (h : World L k (Function.update sp i (some s)))
    (hf : Frame i sp k₀ k) (hu : (k₀.processTable i).state = .UNUSED) (hp : sp p = some s₀)
    (hi : sp i = none)
    (hc : ∃ entry < 0x100000, (k.processTable i).context = startContext entry) :
    wp F (adoptImage p i >>= fun _ => procFree i) k fun _ k' => Replaced L sp k₀ p s k' := by
  have hlive := live_of_space hp
  have hne : p ≠ i := slot_ne hlive hi
  have hp' : Function.update sp i (some s) p = some s₀ := by rw [Function.update_of_ne hne, hp]
  have hi' : Function.update sp i (some s) i = some s := Function.update_self _ _ _
  refine wp_seq (wp_adoptImage hne (h.slot p s₀ hp').fields.vm (h.slot i s hi').fields.vm) ?_
  rintro - _ rfl
  have hi₁ : (Function.update sp i (some s) ∘ Equiv.swap p i) i = some s₀ := by
    rw [Function.comp_apply, Equiv.swap_apply_right, hp']
  refine wp_mono (wp_procFree (h.adopted hne hp' hi') hi₁) ?_
  rintro - k' ⟨m, rfl, h₂, hf₂⟩
  -- the slots other than the two are where they were
  have hother : ∀ j ≠ p, sp j ≠ none →
      j ≠ i ∧ (Function.update sp i (some s) ∘ Equiv.swap p i) j = sp j ∧
        (adopted k p i).processVm j = k₀.processVm j := by
    intro j hj hl
    have hji : j ≠ i := slot_ne hl hi
    refine ⟨hji, ?_, ?_⟩
    · rw [Function.comp_apply, Equiv.swap_apply_of_ne_of_ne hj hji, Function.update_of_ne hji]
    · exact (congrArg _ (Equiv.swap_apply_of_ne_of_ne hj hji)).trans (hf.vms j hji hl)
  have hprocess : ((adopted k p i).setSlot i m ((adopted k p i).processVm i)
      (freedProcess ((adopted k p i).processTable i))).processTable p =
      adopting (k.processTable p) (k.processTable i) := by
    simp [adopted, Kernel.setSlot, Kernel.setVm, Kernel.setMem, Kernel.setEntry, hne]
  refine ⟨?_, ⟨?_, ?_, ?_, hf.kernelVm, hf.current, hf.ttb, hf.round, hf.fat, ?_⟩, ?_, ?_, ?_⟩
  · convert h₂ using 1
    funext j
    by_cases hji : j = i
    · rw [hji, Function.update_self, Function.update_of_ne hne.symm, hi]
    rw [Function.update_of_ne hji]
    by_cases hjp : j = p
    · rw [hjp, Function.update_self, Function.comp_apply, Equiv.swap_apply_left, hi']
    · rw [Function.update_of_ne hjp, Function.comp_apply, Equiv.swap_apply_of_ne_of_ne hjp hji,
        Function.update_of_ne hji]
  · intro j hj hl
    have hji := (hother j hj hl).1
    rw [← hf.table j hji hl]
    simp [adopted, Kernel.setSlot, Kernel.setVm, Kernel.setMem, Kernel.setEntry, hji, hj]
  · intro j hj hl
    obtain ⟨hji, -, hvm⟩ := hother j hj hl
    rw [← hvm]
    exact Function.update_of_ne hji _ _
  · intro j hj hl
    by_cases hji : j = i
    · rw [hji, setSlot_processTable, hu]
      rfl
    · rw [← hf.unused j hji hl]
      simp [adopted, Kernel.setSlot, Kernel.setVm, Kernel.setMem, Kernel.setEntry, hji, hj]
  · refine (hf.ram.mono ?_).trans (hf₂.ram.mono ?_)
    · exact held_other_mono rfl fun j hj hl => ⟨(hother j hj hl).1, rfl, rfl⟩
    · exact held_other_mono hf.kernelVm hother
  · rw [hprocess]
    rfl
  · rw [hprocess, ← hf.table p hne hlive]
    rfl
  · rw [hprocess]
    exact hc

variable [BlockDevice σ]

/-! ### The headers -/

/-- What the first loop of `load_elf` establishes. -/
theorem scanHeaders_some {entry size last last' : Nat} {found found' : Bool}
    {l : List ElfProgramHeader} (h : scanHeaders entry size l last found = some (last', found'))
    (hlast : last ≤ 0x100000) :
    last ≤ last' ∧ last' ≤ 0x100000 ∧
    (∀ ph ∈ l, ph.type = 1 → SegmentFits size last' ph) ∧
    (found' = true → found = true ∨ entry < last') := by
  induction l generalizing last found with
  | nil =>
      cases h
      exact ⟨le_rfl, hlast, by simp, .inl⟩
  | cons ph l ih =>
      rw [scanHeaders] at h
      split at h
      · cases h
      split at h
      next ht =>
        obtain ⟨h₁, h₂, h₃, h₄⟩ := ih h hlast
        refine ⟨h₁, h₂, fun ph' hp htype => ?_, h₄⟩
        rcases List.mem_cons.mp hp with rfl | hp
        · exact absurd htype ht
        · exact h₃ ph' hp htype
      split at h
      · cases h
      next hfit =>
        simp only [not_or, not_lt] at hfit
        obtain ⟨hfilesz, hvaddr, hmemsz, hoff, hfile⟩ := hfit
        obtain ⟨h₁, h₂, h₃, h₄⟩ := ih h (by split <;> omega)
        have hend : ph.vaddr + ph.memsz ≤ last' := by split at h₁ <;> omega
        refine ⟨by split at h₁ <;> omega, h₂, fun ph' hp htype => ?_, fun hf => ?_⟩
        · rcases List.mem_cons.mp hp with rfl | hp
          · exact ⟨hend, hfilesz, hoff, hfile⟩
          · exact h₃ ph' hp htype
        · rcases h₄ hf with hf | hf
          · split at hf
            · next hin => exact .inr (by omega)
            · exact .inl hf
          · exact .inr hf

/-- The program headers of a file with the bytes `f`. -/
def programHeaders (f : Bytes) (elf : ElfHeader) : List ElfProgramHeader :=
  (List.range elf.phnum).map (.ofBytes (readBytes f elf.phoff (elf.phnum * 32)))

/-- A file with the bytes `f` has headers that `load_elf` accepts. -/
structure AcceptedElf (f : Bytes) (size : Nat) (elf : ElfHeader) (last : Nat) : Prop where
  header : 52 ≤ size
  elf_eq : elf = .ofBytes (readBytes f 0 52)
  accepted : elf.accepted = true
  phoff : elf.phoff ≤ size
  phnum : elf.phnum * 32 ≤ size - elf.phoff
  scan : scanHeaders elf.entry size (programHeaders f elf) 0 false = some (last, true)

/-- What `load_elf` knows after its first loop: the entry point, the headers, the end of the
image. -/
structure Plan where
  entry : Nat
  headers : List ElfProgramHeader
  last : Nat

/-- The fields are words. -/
structure ElfProgramHeader.Words (ph : ElfProgramHeader) : Prop where
  off : ph.off < 2 ^ 32
  vaddr : ph.vaddr < 2 ^ 32
  filesz : ph.filesz < 2 ^ 32
  memsz : ph.memsz < 2 ^ 32

/-- The plan has passed the first loop. -/
structure Plan.Checked (size : Nat) (plan : Plan) : Prop where
  scan : scanHeaders plan.entry size plan.headers 0 false = some (plan.last, true)
  entry : plan.entry < 2 ^ 32
  words : ∀ ph ∈ plan.headers, ph.Words

/-- The file's headers and the plan they make. -/
structure Plan.Of (f : Bytes) (size : Nat) (elf : ElfHeader) (plan : Plan) : Prop where
  accepted : AcceptedElf f size elf plan.last
  entry : plan.entry = elf.entry
  headers : plan.headers = programHeaders f elf

/-- `load_elf` up to the end of its first loop. -/
def checkHeaders (file : FatFile) : KM σ (Option Plan) := do
  match ← readLocal file 0 52 with
  | none => return none
  | some b =>
      let elf := ElfHeader.ofBytes b
      if !elf.accepted then return none
      else
        match ← readLocal file elf.phoff (elf.phnum * 32) with
        | none => return none
        | some b =>
            let ph := (List.range elf.phnum).map (ElfProgramHeader.ofBytes b)
            match scanHeaders elf.entry file.size ph 0 false with
            | some (last, true) => return some ⟨elf.entry, ph, last⟩
            | _ => return none

/-- A file with the bytes `f` passes if and only if its headers are accepted. -/
theorem wp_checkHeaders {file : FatFile} :
    wp F (checkHeaders file) k fun r k' =>
      (∃ dev, k' = k.setDev dev) ∧
      (∀ plan, r = some plan → plan.Checked file.size) ∧
      ∀ f, FileIs σ k.fat file f →
        (∀ plan, r = some plan → ∃ elf, plan.Of f file.size elf) ∧
        ∀ elf last, AcceptedElf f file.size elf last → r ≠ none := by
  refine wp_seq wp_readLocal ?_
  rintro b _ ⟨⟨dev, rfl⟩, hb⟩
  cases b with
  | none =>
      refine wp_pure ⟨⟨dev, rfl⟩, nofun, fun f hf => ⟨nofun, fun elf last ha => ?_⟩⟩
      have hread := hb f hf
      rw [if_pos ⟨Nat.zero_le _, ha.header⟩] at hread
      cases hread
  | some b =>
      -- the first read succeeded; a file with the bytes `f` has given its header
      have hheader : ∀ f, FileIs σ k.fat file f →
          52 ≤ file.size ∧ ElfHeader.ofBytes b = .ofBytes (readBytes f 0 52) := by
        intro f hf
        obtain ⟨hin, hsome⟩ := Option.ite_none_right_eq_some.mp (hb f hf).symm
        exact ⟨hin.2, by rw [Option.some.inj hsome]⟩
      have hentry : (ElfHeader.ofBytes b).entry < 2 ^ 32 := le32_lt _ _
      dsimp only
      generalize ElfHeader.ofBytes b = elf at hheader hentry ⊢
      refine wp_ite (fun hbad => ?_) fun hgood => ?_
      · refine wp_pure ⟨⟨dev, rfl⟩, nofun, fun f hf => ⟨nofun, fun elf' last ha => ?_⟩⟩
        rw [(hheader f hf).2, ← ha.elf_eq, ha.accepted] at hbad
        cases hbad
      refine wp_seq wp_readLocal ?_
      rintro b' _ ⟨⟨dev', rfl⟩, hb'⟩
      cases b' with
      | none =>
          refine wp_pure ⟨⟨dev', rfl⟩, nofun, fun f hf => ⟨nofun, fun elf' last ha => ?_⟩⟩
          obtain rfl := (hheader f hf).2.trans ha.elf_eq.symm
          have hread := hb' f hf
          rw [if_pos ⟨ha.phoff, ha.phnum⟩] at hread
          cases hread
      | some b' =>
          have hheaders : ∀ f, FileIs σ k.fat file f →
              (elf.phoff ≤ file.size ∧ elf.phnum * 32 ≤ file.size - elf.phoff) ∧
              (List.range elf.phnum).map (ElfProgramHeader.ofBytes b') = programHeaders f elf := by
            intro f hf
            obtain ⟨hin, hsome⟩ := Option.ite_none_right_eq_some.mp (hb' f hf).symm
            exact ⟨hin, by rw [programHeaders, Option.some.inj hsome]⟩
          have hwords : ∀ ph ∈ (List.range elf.phnum).map (ElfProgramHeader.ofBytes b'),
              ph.Words := by
            intro ph hp
            obtain ⟨n, -, rfl⟩ := List.mem_map.mp hp
            exact ⟨le32_lt _ _, le32_lt _ _, le32_lt _ _, le32_lt _ _⟩
          dsimp only
          generalize (List.range elf.phnum).map (ElfProgramHeader.ofBytes b') = ph
            at hheaders hwords ⊢
          split
          · next last hscan =>
              refine wp_pure ⟨⟨dev', rfl⟩, ?_, fun f hf => ⟨?_, fun _ _ _ => nofun⟩⟩
              · rintro _ ⟨⟩
                exact ⟨hscan, hentry, hwords⟩
              · rintro _ ⟨⟩
                obtain ⟨⟨hoff, hnum⟩, hph⟩ := hheaders f hf
                obtain ⟨hsize, helf⟩ := hheader f hf
                refine ⟨elf, ⟨hsize, helf, by simpa using hgood, hoff, hnum, ?_⟩, rfl, hph⟩
                rw [← hph]
                exact hscan
          · next hscan =>
              refine wp_pure ⟨⟨dev', rfl⟩, nofun, fun f hf => ⟨nofun, fun elf' last ha => ?_⟩⟩
              obtain rfl := (hheader f hf).2.trans ha.elf_eq.symm
              have hsome := ha.scan
              rw [← (hheaders f hf).2] at hsome
              exact absurd hsome (hscan last)

/-! ### `load_elf` -/

theorem roundUp_page {n : Nat} (h : n ≤ 0x100000) : n ≤ 4096 * (roundUp n 4096 / 4096) ∧
    roundUp n 4096 / 4096 ≤ 256 := by
  rw [roundUp, u32]
  omega

/-- `load_elf` after its first loop, with the accesses of the copying. -/
def fillImage (proc : Fin 10) (file : FatFile) (plan : Plan) : KM σ (Bool × List Access) := do
  procExpandMemory proc (roundUp plan.last 4096 / 4096)
  let (ok, log) ← runChunks proc file (chunks plan.headers)
  if ok then
    setProcess proc fun p => { p with entry := plan.entry, context := startContext plan.entry }
    return (true, log)
  else return (false, log)

/-- `load_elf` with its plan and its accesses. -/
def loadElfLog (proc : Fin 10) (file : FatFile) : KM σ (Bool × Option Plan × List Access) := do
  match ← checkHeaders file with
  | none => return (false, none, [])
  | some plan => (fun r => (r.1, some plan, r.2)) <$> fillImage proc file plan

/-- **`load_elf` is the run that also tells its accesses.** -/
theorem loadElf_eq (proc : Fin 10) (file : FatFile) :
    (loadElf proc file : KM σ Bool) = Prod.fst <$> loadElfLog proc file := by
  rw [loadElf, loadElfLog, checkHeaders, bind_assoc, map_bind]
  refine congrArg _ (funext fun b => ?_)
  cases b with
  | none => simp
  | some b =>
      dsimp only
      generalize ElfHeader.ofBytes b = elf
      split
      · simp
      rw [bind_assoc, map_bind]
      refine congrArg _ (funext fun b' => ?_)
      cases b' with
      | none => simp
      | some b' =>
          dsimp only
          generalize (List.range elf.phnum).map (ElfProgramHeader.ofBytes b') = ph
          rw [loadImage, copySegments_eq]
          rcases scanHeaders elf.entry file.size ph 0 false with _ | ⟨last, _ | _⟩
          · simp
          · simp
          · simp only [pure_bind, fillImage, map_bind, bind_map_left]
            refine congrArg _ (funext fun _ => congrArg _ (funext fun r => ?_))
            obtain ⟨ok, log⟩ := r
            cases ok <;> simp

/-- The image in slot `i`, whose space was `s` with no heap: the heap has the frames `frames`, the
other pages and the other slots are framed, and the accesses stayed inside.  From a file with the
bytes `f` the heap is the image. -/
structure Filled (L : Layout) (sp : Fin 10 → Option Space) (k : Kernel σ) (i : Fin 10) (s : Space)
    (file : FatFile) (plan : Plan) (frames : List Nat) (r : Bool × List Access) (k' : Kernel σ) :
    Prop where
  pages : frames.length = roundUp plan.last 4096 / 4096
  world : World L k' (Function.update sp i (some ⟨s.kernelStack, s.userStack, frames⟩))
  frame : Frame i sp k k'
  state : (k'.processTable i).state = (k.processTable i).state
  stack : ∀ p ∈ s.pages, ∀ a, p ≤ a → a < p + 4096 → k'.mem.ram a = k.mem.ram a
  inside : ∀ a ∈ r.2, a.chunk ∈ chunks plan.headers ∧ a.Inside frames file.size
  context : r.1 = true → (k'.processTable i).context = startContext plan.entry
  contents : ∀ f, FileIs σ k.fat file f → r.1 = true ∧ ∀ a < 4096 * frames.length,
    heapBytes frames k'.mem.ram a = imageByte f plan.headers a

theorem wp_fillImage {file : FatFile} {plan : Plan} (h : World L k sp) (hi : sp i = some s)
    (hs : s.frames = []) (hsize : file.size < 2 ^ 32)
    (hplan : plan.Checked file.size) :
    wp (Small (bootArena L)) (fillImage i file plan) k fun r k' =>
      ∃ frames, Filled L sp k i s file plan frames r k' := by
  obtain ⟨kernelStack, userStack, frames₀⟩ := s
  obtain rfl : frames₀ = [] := hs
  obtain ⟨-, hlast, hfits, -⟩ := scanHeaders_some hplan.scan (by decide)
  obtain ⟨hle, hpages⟩ := roundUp_page hlast
  refine wp_seq (wp_procExpandMemory h hi (show 0 + _ ≤ 256 by omega)) ?_
  rintro - k₁ ⟨frames, m, vm, hn, hg, rfl⟩
  rw [← hn] at hle hpages ⊢
  obtain ⟨h₁, hf₁⟩ := hg.world h hi (show 0 + _ ≤ 256 by omega)
  have hi₁ : Function.update sp i (some (Space.mk kernelStack userStack frames)) i =
    some ⟨kernelStack, userStack, frames⟩ := Function.update_self _ _ _
  refine wp_seq (wp_runChunks h₁ hi₁ hsize fun c hc => ?_) ?_
  · obtain ⟨hmem, ht, hlt⟩ := mem_chunks hc
    obtain ⟨hm, h₂, h₃, h₄⟩ := hfits c.header hmem ht
    exact ⟨hlt, hm.trans hle, h₂, h₃, h₄⟩
  rintro ⟨ok, log⟩ k₂ ⟨hw, hlog, hok⟩
  obtain ⟨h₂, hf₂⟩ := h₁.wroteHeap hi₁ hw
  have hf := hf₁.trans hf₂.update
  have hstate : (k₂.processTable i).state = (k.processTable i).state := by
    rw [hw.processTable, grownKernel_processTable]
  have hstacks : ∀ p ∈ (Space.mk kernelStack userStack []).pages, ∀ a, p ≤ a → a < p + 4096 →
      k₂.mem.ram a = k.mem.ram a := by
    intro p hp a hlo hhi
    have hal := (h.page_aligned hi hp).1
    obtain ⟨hks, hus⟩ := h₁.stack_notMem hi₁
    have hp' : p ∉ (frames : Multiset Nat) := by
      simp only [Space.pages, Multiset.mem_cons] at hp
      rcases hp with rfl | rfl | hp
      · exact hks
      · exact hus
      · cases hp
    have hQ : ∀ q ∈ (frames : Multiset Nat), q % 4096 = 0 := (h₁.apart hi₁).aligned
    exact (hw.ram.page hQ hal hp' hlo hhi).trans
      (hg.ram.page (Multiset.mem_add.mpr (.inl hp)) hal hlo hhi)
  have hcontents : ∀ f, FileIs σ k.fat file f → ok = true ∧ ∀ a < 4096 * frames.length,
      heapBytes frames k₂.mem.ram a = imageByte f plan.headers a := by
    intro f hfile
    obtain ⟨htrue, hbytes⟩ := hok f (hf₁.fat ▸ hfile)
    refine ⟨htrue, fun a ha => ?_⟩
    rw [hbytes, foldl_chunks]
    refine foldl_fillSegment f _ ?_
    have hframe := List.getElem?_eq_getElem (show a / 4096 < frames.length by omega)
    rw [heapBytes_of_frame _ hframe]
    exact hg.zeroed _ (List.mem_of_getElem? hframe) _ (by omega) (by omega)
  refine wp_ite (fun _ => ?_) fun hbad => ?_
  · obtain ⟨h₃, hf₃⟩ := h₂.setEntry (i := i)
      (p := { k₂.processTable i with entry := plan.entry, context := startContext plan.entry })
      fun s' hs' => (h₂.slot i s' hs').fields.congr rfl
    refine wp_bind (wp_setProcess (wp_pure ⟨frames, hn.symm ▸ rfl, h₃, hf.trans hf₃.update, ?_,
      hstacks, hlog, fun _ => ?_, fun f hfile => ⟨rfl, (hcontents f hfile).2⟩⟩))
    · rw [setEntry_processTable]
      exact hstate
    · rw [setEntry_processTable]
  · refine wp_pure ⟨frames, hn, h₂, hf, hstate, hstacks, hlog, fun htrue => ?_, fun f hfile => ?_⟩
    · exact absurd htrue Bool.false_ne_true
    · exact absurd (hcontents f hfile).1 hbad

/-- **`load_elf`** refuses the file and keeps the slot, or fills the slot with the image. -/
theorem wp_loadElfLog {file : FatFile} (h : World L k sp) (hi : sp i = some s)
    (hs : s.frames = []) (hsize : file.size < 2 ^ 32) :
    wp (Small (bootArena L)) (loadElfLog i file) k fun r k' =>
      (r = (false, none, []) ∧ (∃ dev, k' = k.setDev dev) ∧
        ∀ f elf last, FileIs σ k.fat file f → ¬AcceptedElf f file.size elf last) ∨
      ∃ plan dev frames, r.2.1 = some plan ∧ plan.Checked file.size ∧
        (∀ f, FileIs σ k.fat file f → ∃ elf, plan.Of f file.size elf) ∧
        Filled L sp (k.setDev dev) i s file plan frames (r.1, r.2.2) k' := by
  refine wp_seq wp_checkHeaders ?_
  rintro r _ ⟨⟨dev, rfl⟩, hplan, hfile⟩
  cases r with
  | none =>
      refine wp_pure (.inl ⟨rfl, ⟨dev, rfl⟩, fun f elf last hf ha => ?_⟩)
      exact (hfile f hf).2 elf last ha rfl
  | some plan =>
      refine wp_map (wp_mono (wp_fillImage (h.setDev dev) hi hs hsize (hplan plan rfl)) ?_)
      rintro r k' ⟨frames, hf⟩
      exact .inr ⟨plan, dev, frames, rfl, hplan plan rfl, fun f hf => (hfile f hf).1 plan rfl, hf⟩

/-- A program that is loaded is copied whole: every round of its plan has been made. -/
theorem wp_loadElfLog_all {file : FatFile} (k : Kernel σ) :
    wp True (loadElfLog i file) k fun r _ => r.1 = true →
      ∃ plan, r.2.1 = some plan ∧ r.2.2.map (·.chunk) = chunks plan.headers := by
  refine wp_seq (wp_trivial _ k) fun plan k₁ _ => ?_
  cases plan with
  | none => exact wp_pure fun hok => absurd hok Bool.false_ne_true
  | some plan =>
      refine wp_map (wp_seq (wp_trivial _ k₁) fun _ k₂ _ => wp_seq (wp_runChunks_all _ k₂) ?_)
      rintro ⟨ok, log⟩ k₃ hlog
      refine wp_ite (fun hok => ?_) fun _ => wp_pure fun hok => absurd hok Bool.false_ne_true
      exact wp_seq (wp_trivial _ k₃) fun _ k₄ _ => wp_pure fun _ => ⟨plan, rfl, hlog hok⟩

/-- The slot after `load_elf`, and an accepted file is loaded. -/
theorem wp_loadElf {file : FatFile} (h : World L k sp) (hi : sp i = some s) (hs : s.frames = [])
    (hsize : file.size < 2 ^ 32) :
    wp (Small (bootArena L)) (loadElf i file) k fun ok k' =>
      (∃ s', Loaded L sp k i s' ok k') ∧
      ∀ f elf last, FileIs σ k.fat file f → AcceptedElf f file.size elf last → ok = true := by
  rw [loadElf_eq]
  refine wp_map (wp_mono (wp_loadElfLog h hi hs hsize) ?_)
  rintro r k' (⟨rfl, ⟨dev, rfl⟩, hno⟩ | ⟨plan, dev, frames, -, hplan, -, hf⟩)
  · refine ⟨⟨s, ?_, (Frame.refl i sp k).setDev dev, rfl, nofun⟩, fun f elf last hfile ha => ?_⟩
    · rw [← hi, Function.update_eq_self]
      exact h.setDev dev
    · exact absurd ha (hno f elf last hfile)
  · obtain ⟨-, hlast, -, hentry⟩ := scanHeaders_some hplan.scan (by decide)
    refine ⟨⟨_, hf.world, ((Frame.refl i sp k).setDev dev).trans hf.frame, hf.state,
      fun hok => ⟨plan.entry, ?_, hf.context hok⟩⟩, fun f _ _ hfile _ => (hf.contents f hfile).1⟩
    rcases hentry rfl with h' | h'
    · cases h'
    · omega

/-! ### `proc_load_program` -/

theorem wp_openFile {name : List UInt8} :
    wp F (openFile name) k fun file k' =>
      file = (fatOpen k.fat (some name) k.dev).1 ∧ ∃ dev, k' = k.setDev dev :=
  wp_get_bind (wp_set_bind (wp_pure ⟨rfl, _, rfl⟩))

/-- **`proc_load_program`** on a process in use: it fails and every slot in use is as it was, or the
process has a new program.  With a free slot, an accepted file is loaded. -/
theorem wp_procLoadProgram {name : List UInt8} {s₀ : Space} (h : World L k sp)
    (hu : ∀ i, (k.processTable i).state = .UNUSED → sp i = none) (hp : sp p = some s₀) :
    wp (Small (bootArena L)) (procLoadProgram L (some p) name) k fun ok k' =>
      ((ok = false ∧ World L k' sp ∧ Kept sp k k') ∨ (ok = true ∧ ∃ s, Replaced L sp k p s k')) ∧
      ∀ file f elf last, (∀ dev : σ, (fatOpen k.fat (some name) dev).1 = some file) →
        FileIs σ k.fat file f → AcceptedElf f file.size elf last → firstUnused k ≠ none →
        ok = true := by
  refine wp_seq wp_openFile ?_
  rintro file _ ⟨hopen, dev, rfl⟩
  have h₁ := h.setDev dev
  have hf₁ : Kept sp k (k.setDev dev) :=
    ⟨fun _ _ => rfl, fun _ _ => rfl, fun _ _ => rfl, rfl, rfl, rfl, rfl, rfl, .refl _ _⟩
  cases file with
  | none =>
      refine wp_pure ⟨.inl ⟨rfl, h₁, hf₁⟩, fun file f elf last hfile => ?_⟩
      rw [hfile] at hopen
      cases hopen
  | some file =>
      refine wp_seq (wp_procCreate h₁ hu) ?_
      rintro image k₂ (⟨rfl, rfl, hfull⟩ | ⟨i, s, rfl, hcr⟩)
      · exact wp_pure ⟨.inl ⟨rfl, h₁, hf₁⟩, fun _ _ _ _ _ _ _ hfree => absurd hfull hfree⟩
      · have hunused := firstUnused_some hcr.unused
        have hi := hu i hunused
        have hf₂ : Frame i sp k k₂ := ((Frame.refl i sp k).setDev dev).trans hcr.frame
        have hsize := fatOpen_size_lt hopen.symm
        refine wp_seq (wp_loadElf hcr.world (Function.update_self _ _ _) hcr.frames hsize) ?_
        rintro ok k₃ ⟨⟨s', hl⟩, hok⟩
        have hw := hl.world
        rw [Function.update_idem] at hw
        have hf₃ := hf₂.trans hl.frame.update
        refine wp_ite (fun htrue => ?_) fun hbad => ?_
        · rw [← bind_assoc]
          refine wp_seq (wp_adopt_free hw hf₃ hunused hp hi (hl.context htrue)) ?_
          intro _ k' hr
          exact wp_pure ⟨.inr ⟨rfl, s', hr⟩, fun _ _ _ _ _ _ _ _ => rfl⟩
        · refine wp_seq (wp_procFree hw (Function.update_self _ _ _)) ?_
          rintro - k' ⟨m, rfl, h₄, hf₄⟩
          rw [Function.update_idem, ← hi, Function.update_eq_self] at h₄
          refine wp_pure ⟨.inl ⟨rfl, h₄, (hf₃.trans hf₄.update).kept hi ?_⟩, ?_⟩
          · rw [setSlot_processTable]
            exact hunused.symm
          · intro file' f elf last hfile hf ha _
            rw [hfile] at hopen
            cases hopen
            exact absurd (hok f elf last (hf₂.fat ▸ hf) ha) hbad

end Arunos
