import Arunos.Proc.Refine

/-!
# Proc — Boot — what `c_entry` leaves behind

The kernel starts with its static variables zero, arbitrary bytes in memory and an arbitrary disk.
`c_entry` builds the allocator, the kernel's page tables and an empty process table, mounts the
disk and loads the shell.  It ends in one of its two loops with the accounts of memory in order, or
with the shell as the one process, running (`wp_cEntry`).  With a kernel image below 16 MiB it
does not fault.
-/

namespace Arunos

variable {σ : Type} {L : Layout} {k k' : Kernel σ} {sp : Fin 10 → Option Space} {F : Prop}

/-- The state in which `c_entry` is called. -/
def Kernel.initial (ram : Bytes) (dev : σ) : Kernel σ where
  mem := ⟨ram, NULL, NULL, 0, 0, 0⟩
  kernelVm := .zero
  processTable _ := .zero
  processVm _ := .zero
  currentProcess := none
  ttb := none
  roundRobinIndex := 0
  fat := .zero
  dev := dev

/-- The tasks when the shell starts: one process, running. -/
def Tasks.initial : Tasks where
  table := Function.update (fun _ => none) 0 (some .ready)
  current := some 0
  round := 0

/-! ### Room -/

theorem bootArena_card (L : Layout) :
    (bootArena L).pages.card = (pageRange L.allocatableStart 0x82000000).length + 57344 := by
  rw [show (bootArena L).pages = bootPages L from rfl, bootPages, Multiset.card_add,
    Multiset.coe_card, Multiset.coe_card, length_pageRange 0x82000000]

theorem not_small (h : L.kernelEnd < 0x81000000) :
    4 * (2580 : Nat) + 2904 + 3 < 4 * (pageRange L.allocatableStart 0x82000000).length := by
  rw [length_pageRange, Layout.allocatableStart]
  omega

/-- There is room for all the processes there can be. -/
theorem bootArena_roomy (L : Layout) : ¬Small (bootArena L) := by
  have h := bootArena_card L
  unfold Small
  rw [bootArena_pageBudget, bootArena_tableBudget]
  omega

/-- The pages of the first call of `kalloc_init`. -/
def firstArena (L : Layout) : Arena :=
  (bootArena L).sub (pageRange L.allocatableStart 0x82000000 : List Nat) (Multiset.le_add_right _ _)

theorem firstArena_pageBudget (L : Layout) : (firstArena L).pageBudget = 2580 := rfl

theorem firstArena_tableBudget (L : Layout) : (firstArena L).tableBudget = 2904 := rfl

theorem firstArena_small (h : Small (firstArena L)) : 0x81000000 ≤ L.kernelEnd := by
  by_contra hlt
  have h₁ := not_small (not_le.mp hlt)
  have h₂ : 4 * ((pageRange L.allocatableStart 0x82000000 : List Nat) : Multiset Nat).card ≤
    4 * 2580 + 2904 + 3 := h
  rw [Multiset.coe_card] at h₂
  omega

/-! ### The steps of `c_entry` -/

/-- An allocator with no pages. -/
theorem Pool.empty (A : Arena) (ram : Bytes) :
    Pool (A.sub 0 (Multiset.zero_le _)) ⟨ram, NULL, NULL, 0, 0, 0⟩ 0 0 := by
  refine ⟨⟨[], [], ?_, ?_, ?_, ?_, ?_, ?_, ?_⟩, ?_, ?_, ?_, ?_⟩
  all_goals simp [Linked, NULL, held, Arena.chunks, Arena.sub]

theorem wp_procInit :
    wp F procInit k fun _ k' => k' = { k with
      processTable := fun i => { k.processTable i with state := .UNUSED }
      currentProcess := none } := by
  let I : Nat → Unit → Kernel σ → Prop := fun n _ k' => k' = { k with
    processTable := fun i =>
      if i.val < n then { k.processTable i with state := .UNUSED } else k.processTable i }
  have h₀ : I 0 () k := by simp [I]
  refine wp_seq (wp_loop I h₀ ?_) ?_
  · rintro n - _ hn rfl
    refine wp_setProcess ?_
    dsimp only [I, Kernel.setEntry]
    congr 1
    funext i
    by_cases hi : i = Fin.ofNat 10 n
    · subst hi
      simp [Nat.mod_eq_of_lt hn]
    · have hne : i.val ≠ n := fun e => hi (Fin.ext (by simp [e, Nat.mod_eq_of_lt hn]))
      rw [Function.update_of_ne hi]
      by_cases hlt : i.val < n
      · rw [if_pos hlt, if_pos (by omega)]
      · rw [if_neg hlt, if_neg (by omega)]
  · rintro - _ rfl
    refine wp_modify ?_
    simp

/-- After both ranges are given to the allocator and `kernel_vm` is set up. -/
theorem wp_memoryInit (ram : Bytes) (dev : σ) :
    wp (0x81000000 ≤ L.kernelEnd) (memoryInit L) (Kernel.initial ram dev) fun _ k' =>
      World L k' (fun _ => none) ∧ (∀ i, k'.processTable i = .zero) ∧
      k'.currentProcess = none ∧ k'.ttb = none ∧ k'.fat = .zero ∧ k'.dev = dev := by
  have hfits := L.fits
  refine wp_bind (wp_onMem (wp_mono (wp_kallocInit (firstArena L)
    (Pool.empty (bootArena L) ram) ?_ ?_ ?_ ?_ ?_) ?_))
  · exact (zero_add _).symm
  · rw [firstArena_pageBudget, Arena.sub_pageBudget, bootArena_pageBudget]
  · rw [firstArena_tableBudget, Arena.sub_tableBudget, bootArena_tableBudget]
  · rw [Layout.allocatableStart]
    omega
  · decide
  rintro - m₁ ⟨hp₁, -⟩
  refine wp_bind (wp_bind (wp_onMem (wp_mono (wp_weaken (wp_setupKernelVm hp₁ ?_) firstArena_small)
    ?_)))
  · rw [firstArena_tableBudget]
    decide
  rintro vm m₂ ⟨hw₂, -⟩
  refine wp_modify (wp_seq wp_procInit ?_)
  rintro - _ rfl
  refine wp_onMem (wp_mono (wp_kallocInit (bootArena L) hw₂.pool ?_ ?_ ?_ ?_ ?_) ?_)
  · rfl
  · rw [firstArena_pageBudget, bootArena_pageBudget]
  · rw [firstArena_tableBudget, bootArena_tableBudget]
  · decide
  · decide
  rintro - m₃ ⟨hp₃, hs₃⟩
  refine ⟨?_, fun _ => rfl, rfl, rfl, rfl, rfl⟩
  refine ⟨?_, fun _ _ h => absurd h (by simp), hw₂.inside, ?_⟩
  · have hpages : allPages (fun _ => none) = 0 := by simp [allPages, slotPages]
    have htables : ∀ k' : Kernel σ, allTables k' (fun _ => none) = tables k'.kernelVm + 0 := by
      simp [allTables, slotTables]
    rw [hpages, htables]
    exact hp₃
  · have hsub : ∀ t ∈ tables vm, t ∈ held 0 (tables vm + 0) := fun t ht =>
      Multiset.mem_add.mpr (.inr (Multiset.mem_add.mpr (.inl ht)))
    rw [← hw₂.walk]
    exact descriptor_congr (hs₃.mono hsub)

theorem firstUnused_zero (h : (k.processTable 0).state = .UNUSED) : firstUnused k = some 0 := by
  rw [firstUnused, List.finRange_succ]
  exact List.find?_cons_of_pos (by simpa using h)

/-- The slots in use are the ones with a space. -/
def Owns (L : Layout) (k : Kernel σ) (sp : Fin 10 → Option Space) : Prop :=
  World L k sp ∧ ∀ i, (k.processTable i).state = .UNUSED ↔ sp i = none

/-- No process has started. -/
def Unstarted (k : Kernel σ) : Prop :=
  ∀ i, (k.processTable i).state ≠ .UNUSED →
    (k.processTable i).state = .CREATED ∧ (k.processTable i).waitPid = -1

/-- The shell is the one process, and runs. -/
structure Started (L : Layout) (k : Kernel σ) (s : Space) : Prop where
  runs : Runs L k .initial (Function.update (fun _ => none) 0 (some s))
  context : ∃ entry < 0x100000, (k.processTable 0).context = startContext entry

/-- The tasks before the first call of `schedule`. -/
def Tasks.unscheduled : Tasks := { Tasks.initial with current := none }

theorem Tasks.unscheduled_schedule : Tasks.unscheduled.schedule = (.initial, .resume) := by
  have h : Tasks.unscheduled.next = some 0 := by decide
  rw [Tasks.schedule, h]
  rfl

/-- A loaded process in slot 0 of an empty table. -/
theorem Runs.unscheduled {s : Space} (h : World L k (Function.update (fun _ => none) 0 (some s)))
    (hv : Shows (k.processTable 0) (some .ready))
    (hu : ∀ j ≠ 0, (k.processTable j).state = .UNUSED) (hc : k.currentProcess = none)
    (ht : k.ttb = none) :
    Runs L { k with roundRobinIndex := 0 } .unscheduled
      (Function.update (fun _ => none) 0 (some s)) := by
  refine ⟨h.same rfl rfl rfl rfl, fun j => ?_, fun j => ?_, hc, ht, rfl⟩
  · by_cases hj : j = 0 <;> simp [hj, Tasks.unscheduled, Tasks.initial]
  · by_cases hj : j = 0
    · subst hj
      exact hv
    · simp only [Tasks.unscheduled, Tasks.initial, Function.update_of_ne hj]
      exact hu j hj

variable [BlockDevice σ]

theorem wp_mountDisk :
    wp F mountDisk k fun ok k' => (∃ fat dev, k' = { k with fat := fat, dev := dev }) ∧
      ∀ d d' v, blockInit k.dev = (true, d) → fatInit k.fat d = (true, v, d') →
        ok = true ∧ k' = { k with fat := v, dev := d' } := by
  refine wp_get_bind ?_
  rcases hb : blockInit k.dev with ⟨ready, d₁⟩
  refine wp_ite (fun hready => wp_set_bind (wp_pure ⟨⟨k.fat, d₁, rfl⟩, ?_⟩)) fun hready => ?_
  · rintro d d' v ⟨⟩
    cases hready
  · dsimp only
    rcases hf : fatInit k.fat d₁ with ⟨ok, fat, d₂⟩
    refine wp_set_bind (wp_pure ⟨⟨fat, d₂, rfl⟩, ?_⟩)
    rintro d d' v h₁ h₂
    cases h₁
    cases hf.symm.trans h₂
    exact ⟨rfl, rfl⟩

/-- The shell is the one process, and waits for the first call of `schedule`. -/
structure Prepared (L : Layout) (k : Kernel σ) (s : Space) : Prop where
  runs : Runs L k .unscheduled (Function.update (fun _ => none) 0 (some s))
  context : ∃ entry < 0x100000, (k.processTable 0).context = startContext entry

/-- The kernel has stopped before any process has started. -/
def Stopped (L : Layout) (k : Kernel σ) : Prop :=
  k.currentProcess = none ∧ Unstarted k ∧ ∃ sp, Owns L k sp

theorem wp_startShell (h : World L k fun _ => none) (hu : ∀ i, (k.processTable i).state = .UNUSED)
    (hc : k.currentProcess = none) (ht : k.ttb = none) :
    wp (0x81000000 ≤ L.kernelEnd) (startShell L) k fun ok k' =>
      ((ok = false ∧ Stopped L k') ∨ (ok = true ∧ ∃ s, Prepared L k' s)) ∧
      ∀ file f elf last, (∀ d : σ, (fatOpen k.fat (some shellName) d).1 = some file) →
        FileIs σ k.fat file f → AcceptedElf f file.size elf last → ok = true := by
  refine wp_seq (wp_weaken (wp_procCreate h fun _ _ => rfl) (absurd · (bootArena_roomy L))) ?_
  rintro proc k₁ (⟨-, -, hfull⟩ | ⟨i, s, rfl, hcr⟩)
  · exact absurd (hu 0) (firstUnused_none hfull 0)
  obtain rfl : 0 = i := Option.some.inj ((firstUnused_zero (hu 0)).symm.trans hcr.unused)
  have hother : ∀ j ≠ 0, (k₁.processTable j).state = .UNUSED := fun j hj =>
    (hcr.frame.unused j hj rfl).trans (hu j)
  refine wp_seq (wp_weaken (wp_procLoadProgram hcr.world (hcr.unused_of fun _ _ => rfl)
    (Function.update_self _ _ _)) (absurd · (bootArena_roomy L))) ?_
  rintro ok k₂ ⟨⟨rfl, hw, hk⟩ | ⟨rfl, t, hp⟩, hok⟩
  · have hslot : (k₂.processTable 0).state = .CREATED ∧ (k₂.processTable 0).waitPid = -1 := by
      rw [hk.table 0 (by simp), hcr.process]
      exact ⟨rfl, rfl⟩
    have hfree : ∀ j ≠ 0, (k₂.processTable j).state = .UNUSED := fun j hj =>
      (hk.unused j (by simp [hj])).trans (hother j hj)
    refine wp_pure ⟨.inl ⟨rfl, hk.current.trans (hcr.frame.current.trans hc), fun j hlive => ?_, _,
      hw, fun j => ?_⟩, ?_⟩
    · obtain rfl : j = 0 := by
        by_contra hj
        exact hlive (hfree j hj)
      exact hslot
    · by_cases hj : j = 0
      · subst hj
        simp [hslot.1]
      · simp [hfree j hj, hj]
    · intro file f elf last hfile hf ha
      rw [← hcr.frame.fat] at hfile hf
      cases hok file f elf last hfile hf ha fun hn => firstUnused_none hn 1 (hother 1 (by decide))
  · have hw := hp.world
    rw [Function.update_idem] at hw
    have hv : Shows (k₂.processTable 0) (some .ready) := by
      refine ⟨hp.state, hp.waitPid.trans ?_⟩
      rw [hcr.process]
      rfl
    have hruns := Runs.unscheduled hw hv
      (fun j hj => (hp.frame.unused j hj (by simp [hj])).trans (hother j hj))
      (hp.frame.current.trans (hcr.frame.current.trans hc))
      (hp.frame.ttb.trans (hcr.frame.ttb.trans ht))
    exact wp_modify_bind (wp_pure ⟨.inr ⟨rfl, t, hruns, hp.context⟩, fun _ _ _ _ _ _ _ => rfl⟩)

/-- **`c_entry` up to `schedule`**: the kernel stops in a loop with memory in order, or the shell is
loaded.  It is loaded if the disk mounts and has an accepted file of that name. -/
theorem wp_prepare (ram : Bytes) (dev : σ) :
    wp (0x81000000 ≤ L.kernelEnd) (prepare L) (Kernel.initial ram dev) fun ok k' =>
      ((ok = false ∧ Stopped L k') ∨ (ok = true ∧ ∃ s, Prepared L k' s)) ∧
      ∀ d d' v file f elf last, blockInit dev = (true, d) → fatInit .zero d = (true, v, d') →
        (∀ d : σ, (fatOpen v (some shellName) d).1 = some file) → FileIs σ v file f →
        AcceptedElf f file.size elf last → ok = true := by
  refine wp_seq (wp_memoryInit ram dev) ?_
  rintro - k₁ ⟨h₁, hzero, hcur, httb, hfat, hdev⟩
  have hstate : ∀ i, (k₁.processTable i).state = .UNUSED := fun i => by rw [hzero i]; rfl
  refine wp_seq wp_mountDisk ?_
  rintro ok k₂ ⟨⟨fat, dev₂, rfl⟩, hmount⟩
  rw [hfat, hdev] at hmount
  have h₂ : World L ({ k₁ with fat := fat, dev := dev₂ } : Kernel σ) (fun _ => none) :=
    h₁.same rfl rfl rfl rfl
  refine wp_ite (fun hbad => wp_pure ⟨.inl ⟨rfl, hcur, fun i hi => absurd (hstate i) hi, _, h₂,
    fun i => by simp [hstate]⟩, ?_⟩) fun _ => ?_
  · intro d d' v _ _ _ _ hb hf
    rw [(hmount d d' v hb hf).1] at hbad
    cases hbad
  · refine wp_mono (wp_startShell h₂ hstate hcur httb) ?_
    rintro out k' ⟨hout, hok⟩
    refine ⟨hout, fun d d' v file f elf last hb hf hopen hfile ha => ?_⟩
    obtain rfl : fat = v := congrArg Kernel.fat (hmount d d' v hb hf).2
    exact hok file f elf last hopen hfile ha

/-- **`c_entry`**: the kernel stops in a loop, or the shell runs. -/
theorem wp_cEntry (ram : Bytes) (dev : σ) :
    wp (0x81000000 ≤ L.kernelEnd) (cEntry L) (Kernel.initial ram dev) fun out k' =>
      (out = .halt ∧ Stopped L k') ∨ (out = .resume ∧ ∃ s, Started L k' s) := by
  refine wp_seq (wp_prepare ram dev) ?_
  rintro ok k₁ ⟨⟨rfl, hstop⟩ | ⟨rfl, s, hp⟩, -⟩
  · exact wp_pure (.inl ⟨rfl, hstop⟩)
  · refine wp_mono (wp_schedule hp.runs) ?_
    rintro out k' ⟨rfl, rfl⟩
    have hs := hp.runs.schedule
    rw [Tasks.unscheduled_schedule] at hs ⊢
    exact .inr ⟨rfl, s, hs, hp.context⟩

/-! ### A machine that starts -/

/-- A kernel image of one MiB. -/
def smallLayout : Layout := ⟨0x80100000, by decide, by decide⟩

/-- The header of `shellElf`. -/
def shellHeader : ElfHeader :=
  .ofBytes (readBytes (fileByte shellDisk.bytes shellVolume 2) 0 52)

theorem shellElf_accepted :
    AcceptedElf (fileByte shellDisk.bytes shellVolume 2) 88 shellHeader 88 := by
  refine ⟨by decide, rfl, by decide +kernel, by decide +kernel, by decide +kernel, ?_⟩
  decide +kernel

/-- **The shell of `shellDisk` is loaded.** -/
theorem exists_prepared (ram : Bytes) : ∃ (k : Kernel shellDisk.Reader) (s : Space),
    (prepare smallLayout).run (.initial ram ⟨⟩) = some (true, k) ∧ Prepared smallLayout k s := by
  obtain ⟨ok, k, hrun, hout, hok⟩ := (wp_prepare ram (⟨⟩ : shellDisk.Reader)).total
    (show ¬ 0x81000000 ≤ smallLayout.kernelEnd by decide)
  have htrue : ok = true := by
    refine hok ⟨⟩ ⟨⟩ shellVolume ⟨88, 2⟩ _ _ _ (by decide) fatInit_shellDisk (fun _ => ?_) ?_
      shellElf_accepted
    · exact fatOpen_shellDisk
    · exact .of_fatOpen shellDisk.serves fatInit_shellDisk fatOpen_shellDisk
  subst htrue
  rcases hout with ⟨h, -⟩ | ⟨-, s, hs⟩
  · cases h
  · exact ⟨k, s, hrun, hs⟩

/-- **The machine starts** from `shellDisk`. -/
theorem exists_started (ram : Bytes) : ∃ (k : Kernel shellDisk.Reader) (s : Space),
    (cEntry smallLayout).run (.initial ram ⟨⟩) = some (.resume, k) ∧ Started smallLayout k s := by
  obtain ⟨k, s, hrun, hp⟩ := exists_prepared ram
  obtain ⟨out, k', hrun', rfl, rfl⟩ := (wp_schedule (F := False) hp.runs).total id
  have hs := hp.runs.schedule
  rw [Tasks.unscheduled_schedule] at hs hrun'
  refine ⟨_, s, ?_, hs, hp.context⟩
  have hentry : (cEntry smallLayout).run (Kernel.initial ram (⟨⟩ : shellDisk.Reader)) =
      (schedule (σ := shellDisk.Reader)).run k := by
    rw [cEntry, StateT.run_bind, hrun]
    rfl
  exact hentry.trans hrun'

end Arunos
