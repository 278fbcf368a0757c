import Arunos.Proc.Fork
import Arunos.Proc.Load
import Arunos.Proc.Name
import Arunos.Proc.Tasks

/-!
# Proc — Refine — the kernel does what the abstract tasks do

`Runs L k a sp` says that between two calls the kernel state `k` is a state of the abstract tasks
`a`: its memory is the world `sp`, and the process table shows `a`.  Each handler refines the
abstract operation of its name: from a state of `a` it ends in a state of what the operation makes
of `a`, with the operation's outcome.

What a handler does to a slot `j` it does not work on is stated once: `Spares j` — the process there
keeps its space, its page tables, its bytes and its fields; only who it waits for may change.
-/

namespace Arunos

variable {σ : Type} {L : Layout} {k k' k'' : Kernel σ} {sp sp' sp'' : Fin 10 → Option Space}
  {a : Tasks} {i j c : Fin 10} {F : Prop}

/-! ### The states of the abstract tasks -/

/-- The process table's view of a slot. -/
def Shows (p : Process) : Option (Status (Fin 10)) → Prop
  | none => p.state = .UNUSED
  | some .ready => p.state = .READY ∧ p.waitPid = -1
  | some (.waiting d) => p.state = .SLEEPING ∧ p.waitPid = d.val + 1

/-- The kernel is in a state of the tasks `a`. -/
structure Runs (L : Layout) (k : Kernel σ) (a : Tasks) (sp : Fin 10 → Option Space) : Prop where
  world : World L k sp
  live : ∀ i, sp i = none ↔ a.table i = none
  view : ∀ i, Shows (k.processTable i) (a.table i)
  current : k.currentProcess = a.current
  ttb : k.ttb = a.current
  round : k.roundRobinIndex = a.round.val

theorem Shows.unused_iff {p : Process} {o : Option (Status (Fin 10))} (h : Shows p o) :
    p.state = .UNUSED ↔ o = none := by
  rcases o with _ | _ | d
  · exact ⟨fun _ => rfl, fun _ => h⟩
  · simp [h.1]
  · simp [h.1]

theorem Shows.ready_iff {p : Process} {o : Option (Status (Fin 10))} (h : Shows p o) :
    p.state = .READY ↔ o = some .ready := by
  rcases o with _ | _ | d
  · simp [show p.state = .UNUSED from h]
  · simp [h.1]
  · simp [h.1]

theorem Runs.unused (h : Runs L k a sp) (i : Fin 10)
    (hi : (k.processTable i).state = .UNUSED) : sp i = none :=
  (h.live i).mpr ((h.view i).unused_iff.mp hi)

theorem Runs.space (h : Runs L k a sp) (hi : a.table i ≠ none) : ∃ s, sp i = some s :=
  Option.ne_none_iff_exists'.mp fun e => hi ((h.live i).mp e)

theorem Runs.firstUnused (h : Runs L k a sp) : firstUnused k = a.firstFree := by
  refine congrArg (fun p => List.find? p (List.finRange 10)) (funext fun i => ?_)
  exact decide_eq_decide.mpr (h.view i).unused_iff

/-- The process apart from its place in the protocol of `wait`. -/
def Process.body (p : Process) : Process := { p with state := .UNUSED, waitPid := 0 }

theorem Describes.of_body {p p' : Process} {s : Space} (h : Describes p i s)
    (e : p'.body = p.body) : Describes p' i s := by
  have e' := congrArg (fun q => (q.pid, q.vm, q.kernelStack, q.userStack, q.heapSize)) e
  exact h.congr e'

/-- Nothing a handler changed belongs to the process in slot `j`. -/
structure Spares (j : Fin 10) (sp sp' : Fin 10 → Option Space) (k k' : Kernel σ) : Prop where
  space : sp' j = sp j
  vm : k'.processVm j = k.processVm j
  process : (k'.processTable j).body = (k.processTable j).body
  ram : SameOn (held (slotPages (sp j)) (slotTables (k.processVm j) (sp j))) k.mem.ram k'.mem.ram

theorem Spares.refl (j : Fin 10) (sp : Fin 10 → Option Space) (k : Kernel σ) :
    Spares j sp sp k k := ⟨rfl, rfl, rfl, .refl _ _⟩

theorem Spares.trans (h : Spares j sp sp' k k') (h' : Spares j sp' sp'' k' k'') :
    Spares j sp sp'' k k'' := by
  obtain ⟨h₁, h₂, h₃, h₄⟩ := h
  obtain ⟨h₁', h₂', h₃', h₄'⟩ := h'
  rw [h₁, h₂] at h₄'
  exact ⟨h₁'.trans h₁, h₂'.trans h₂, h₃'.trans h₃, h₄.trans h₄'⟩

theorem Frame.spares (h : Frame i sp k k') (hj : j ≠ i) (hl : sp j ≠ none) (hsp : sp' j = sp j) :
    Spares j sp sp' k k' := by
  refine ⟨hsp, h.vms j hj hl, by rw [h.table j hj hl], h.ram.mono (held_mono ?_ ?_)⟩
  · exact fun p hp => mem_otherPages.mpr ⟨j, hj, hp⟩
  · exact fun t ht => mem_otherTables.mpr (.inr ⟨j, hj, ht⟩)

theorem Kept.spares (h : Kept sp k k') (hl : sp j ≠ none) : Spares j sp sp k k' := by
  refine ⟨rfl, h.vms j hl, by rw [h.table j hl], h.ram.mono (held_mono ?_ ?_)⟩
  · rw [allPages_eq j]
    exact fun p hp => Multiset.mem_add.mpr (.inl hp)
  · rw [allTables_eq j]
    exact fun t ht => Multiset.mem_add.mpr (.inl ht)

/-! ### `schedule` -/

/-- The kernel with another choice of the running process. -/
def Kernel.runAs (k : Kernel σ) (a : Tasks) : Kernel σ :=
  { k with currentProcess := a.current, ttb := a.current, roundRobinIndex := a.round.val }

theorem Runs.runAs {a' : Tasks} (h : Runs L k a sp) (ht : a'.table = a.table) :
    Runs L (k.runAs a') a' sp :=
  ⟨h.world.same rfl rfl rfl rfl, fun i => ht ▸ h.live i,
    fun i => ht ▸ h.view i, rfl, rfl, rfl⟩

theorem Kernel.runAs_self (hc : k.currentProcess = a.current) (ht : k.ttb = a.current)
    (hr : k.roundRobinIndex = a.round.val) : k.runAs a = k := by
  rw [Kernel.runAs, ← hc, ← hr]
  nth_rewrite 2 [hc]
  rw [← ht]

theorem Runs.runAs_self (h : Runs L k a sp) : k.runAs a = k :=
  Kernel.runAs_self h.current h.ttb h.round

theorem Spares.runAs (j : Fin 10) (sp : Fin 10 → Option Space) (k : Kernel σ) (a : Tasks) :
    Spares j sp sp k (k.runAs a) := ⟨rfl, rfl, rfl, .refl _ _⟩

theorem round_step : ∀ r : Fin 10, (if r.val + 1 = 10 then 0 else r.val + 1) = (r + 1).val := by
  decide

/-- What `n` rounds of the search do. -/
theorem wp_scheduleLoop {n : Nat} (h : Runs L k a sp) :
    wp F (scheduleLoop n) k fun out k' =>
      match nextFrom (fun d => a.table d = some .ready) n a.round with
      | some d => out = .resume ∧ k' = k.runAs { a with current := some d, round := d }
      | none => out = .panic ∧ k' = k.runAs { a with round := a.round + Fin.ofNat 10 n } := by
  induction n generalizing k a with
  | zero =>
      refine wp_pure ⟨rfl, ?_⟩
      have e : a.round + Fin.ofNat 10 0 = a.round := by simp
      rw [e]
      exact h.runAs_self.symm
  | succ n ih =>
      have h₁ : Runs L (k.runAs { a with round := a.round + 1 }) { a with round := a.round + 1 }
          sp := h.runAs rfl
      refine wp_modify_bind ?_
      have hk : ({ k with roundRobinIndex := if k.roundRobinIndex + 1 = 10 then 0
          else k.roundRobinIndex + 1 } : Kernel σ) = k.runAs { a with round := a.round + 1 } := by
        rw [h.round, round_step, Kernel.runAs, ← h.current]
        nth_rewrite 3 [h.current]
        rw [← h.ttb]
      rw [hk]
      refine wp_get_bind (wp_bind (wp_deref (a := a.round + 1) ?_ ?_))
      · simp [Kernel.runAs]
      rw [nextFrom]
      refine wp_ite (fun hready => ?_) fun hready => ?_
      · have ht := (h.view (a.round + 1)).ready_iff.mp hready
        obtain ⟨s, hs⟩ := h.space (i := a.round + 1) (by rw [ht]; simp)
        refine wp_modify_bind (wp_bind (wp_modify_bind (wp_get_bind (wp_bind ?_))))
        refine wp_deref (h.world.slot _ s hs).fields.vm (wp_modify (wp_pure ?_))
        rw [if_pos (by simpa using ht)]
        exact ⟨rfl, rfl⟩
      · have ht : a.table (a.round + 1) ≠ some .ready := fun e =>
          hready ((h.view (a.round + 1)).ready_iff.mpr e)
        rw [if_neg (by simpa using ht)]
        refine wp_mono (ih h₁) ?_
        intro out k' hk'
        dsimp only at hk'
        cases hn : nextFrom (fun d => decide (a.table d = some .ready)) n (a.round + 1) with
        | some d =>
            rw [hn] at hk'
            exact hk'
        | none =>
            have e : a.round + 1 + Fin.ofNat 10 n = a.round + Fin.ofNat 10 (n + 1) := by
              ext
              simp only [Fin.ofNat, Fin.val_add, Fin.val_one]
              omega
            rw [hn, e] at hk'
            exact hk'

/-- **`schedule`** runs the next ready process, or none is left. -/
theorem wp_schedule (h : Runs L k a sp) :
    wp F schedule k fun out k' => out = a.schedule.2 ∧ k' = k.runAs a.schedule.1 := by
  refine wp_mono (wp_scheduleLoop h) ?_
  intro out k' hk'
  rw [Tasks.schedule]
  cases hn : a.next with
  | some d =>
      rw [show nextFrom _ 10 a.round = some d from hn] at hk'
      exact hk'
  | none =>
      have e : a.round + Fin.ofNat 10 10 = a.round := by simp
      rw [show nextFrom _ 10 a.round = none from hn, e] at hk'
      exact hk'

theorem Runs.schedule (h : Runs L k a sp) : Runs L (k.runAs a.schedule.1) a.schedule.1 sp :=
  h.runAs Tasks.schedule_table

/-! ### `wait` -/

theorem procGet_some {pid : Int} {d : Fin 10} (h : procGet pid = some d) : pid = d.val + 1 := by
  unfold procGet at h
  split at h
  next hp =>
    cases h
    simp only [Fin.ofNat]
    omega
  · cases h

/-- Fields of the process in slot `c` change, and with them its part of the table. -/
theorem Runs.setEntry {o : Status (Fin 10)} {p : Process} (h : Runs L k a sp)
    (hc : a.table c ≠ none) (hp : p.body = (k.processTable c).body) (hv : Shows p (some o)) :
    Runs L (k.setEntry c p) { a with table := Function.update a.table c (some o) } sp := by
  have hd : ∀ s, sp c = some s → Describes p c s := fun s hs =>
    (h.world.slot c s hs).fields.of_body hp
  refine ⟨(h.world.setEntry hd).1, fun i => ?_, fun i => ?_, h.current, h.ttb, h.round⟩
  · by_cases hi : i = c
    · subst hi
      simp [h.live, hc]
    · simp [h.live, hi]
  · by_cases hi : i = c
    · subst hi
      simpa [Kernel.setEntry] using hv
    · simpa [Kernel.setEntry, hi] using h.view i

theorem Spares.setEntry {p : Process} (hp : p.body = (k.processTable c).body) :
    Spares j sp sp k (k.setEntry c p) := by
  refine ⟨rfl, rfl, ?_, .refl _ _⟩
  by_cases hj : j = c
  · subst hj
    rw [setEntry_processTable, hp]
  · rw [setEntry_of_ne hj]

/-- **`wait`** refines its abstract counterpart. -/
theorem wp_syscallWait {pid : Int} (h : Runs L k a sp) (hc : a.current = some c)
    (hr : a.table c = some .ready) :
    wp F (syscallWait pid) k fun out k' => out = (a.wait c pid).2 ∧
      Runs L k' (a.wait c pid).1 sp ∧ ∀ j, Spares j sp sp k k' := by
  rw [syscallWait, Tasks.wait]
  cases hg : procGet pid with
  | none => exact wp_pure ⟨rfl, h, fun j => .refl j sp k⟩
  | some d =>
      dsimp only
      refine wp_get_bind (wp_ite (fun hu => ?_) fun hu => ?_)
      · rw [if_pos fun e => hu ((h.view d).unused_iff.mpr e)]
        refine wp_get_bind (wp_bind (wp_deref (h.current.trans hc) (wp_bind (wp_setProcess ?_))))
        have hb : ({ k.processTable c with waitPid := pid, state := .SLEEPING } : Process).body =
            (k.processTable c).body := rfl
        have h₁ : Runs L _ (a.move (.wait c d)) sp :=
          h.setEntry (o := .waiting d) (by rw [hr]; simp) hb ⟨rfl, procGet_some hg⟩
        refine wp_mono (wp_schedule h₁) ?_
        rintro out k' ⟨rfl, rfl⟩
        exact ⟨rfl, h₁.schedule, fun j => (Spares.setEntry hb).trans (.runAs j sp _ _)⟩
      · rw [if_neg fun e => e ((h.view d).unused_iff.mp (not_not.mp hu))]
        exact wp_pure ⟨rfl, h, fun j => .refl j sp k⟩

/-! ### `exit` -/

/-- The process table after those who waited for `pid` were woken. -/
def wokenKernel (k : Kernel σ) (pid : Int) : Kernel σ :=
  { k with
    ttb := none
    processTable := fun i =>
      if (k.processTable i).state = .SLEEPING ∧ (k.processTable i).waitPid = pid then
        { k.processTable i with waitPid := -1, state := .READY }
      else k.processTable i }

theorem wokenKernel_body (k : Kernel σ) (pid : Int) (i : Fin 10) :
    ((wokenKernel k pid).processTable i).body = (k.processTable i).body := by
  dsimp only [wokenKernel]
  split <;> rfl

theorem Shows.wake {p : Process} {o : Option (Status (Fin 10))} (h : Shows p o) (c : Fin 10) :
    Shows (if p.state = .SLEEPING ∧ p.waitPid = c.val + 1 then
      { p with waitPid := -1, state := .READY } else p) (wake c o) := by
  rcases o with _ | _ | d
  · rw [if_neg (by simp [show p.state = .UNUSED from h])]
    exact h
  · rw [if_neg (by simp [h.1])]
    exact h
  · by_cases hd : d = c
    · rw [if_pos ⟨h.1, by rw [h.2, hd]⟩, Arunos.wake, if_pos hd]
      exact ⟨rfl, rfl⟩
    · have hne : ¬ (p.state = .SLEEPING ∧ p.waitPid = c.val + 1) := by
        rw [h.2]
        exact fun e => hd (Fin.ext (by omega))
      rw [if_neg hne, Arunos.wake, if_neg hd]
      exact h

/-- **`exit`** refines its abstract counterpart. -/
theorem wp_syscallExit (h : Runs L k a sp) (hc : a.current = some c)
    (hr : a.table c = some .ready) :
    wp F syscallExit k fun out k' => out = (a.exit c).2 ∧
      Runs L k' (a.exit c).1 (Function.update sp c none) ∧
      ∀ j ≠ c, sp j ≠ none → Spares j sp (Function.update sp c none) k k' := by
  obtain ⟨s, hs⟩ := h.space (i := c) (by rw [hr]; simp)
  refine wp_get_bind ?_
  rw [h.current, hc]
  refine wp_modify_bind (wp_get_bind (wp_bind (wp_modify ?_)))
  have hpid : (k.processTable c).pid = c.val + 1 := (h.world.slot c s hs).fields.pid
  dsimp only
  rw [hpid]
  have h₁ : World L (wokenKernel k (c.val + 1)) sp := by
    refine h.world.congr rfl rfl rfl fun j t hj hslot => ⟨?_, hslot.inside, hslot.walk⟩
    exact hslot.fields.of_body (wokenKernel_body k _ j)
  refine wp_seq (wp_procFree (k := wokenKernel k (c.val + 1)) h₁ hs) ?_
  rintro - k₂ ⟨m, hk₂, h₂, hf₂⟩
  refine wp_modify_bind ?_
  have h₃ : Runs L { k₂ with currentProcess := none } { a.move (.exit c) with current := none }
      (Function.update sp c none) := by
    refine ⟨h₂.same rfl rfl rfl rfl, fun i => ?_, fun i => ?_, rfl, hf₂.ttb,
      hf₂.round.trans h.round⟩
    · by_cases hi : i = c
      · subst hi
        simp [Tasks.move, Move.apply]
      · simp [Tasks.move, Move.apply, hi, wake_eq_none, h.live]
    · by_cases hi : i = c
      · subst hi
        rw [hk₂]
        simp [Tasks.move, Move.apply, Shows, freedProcess]
      · have e : k₂.processTable i = (wokenKernel k (c.val + 1)).processTable i := by
          rw [hk₂]
          exact Function.update_of_ne hi _ _
        have hv := (h.view i).wake c
        simp only [Tasks.move, Move.apply, Function.update_of_ne hi]
        rw [e]
        exact hv
  refine wp_mono (wp_schedule h₃) ?_
  rintro out k' ⟨rfl, rfl⟩
  refine ⟨rfl, h₃.schedule, fun j hj hl => ?_⟩
  have hw : Spares j sp sp k (wokenKernel k (c.val + 1)) :=
    ⟨rfl, rfl, wokenKernel_body k _ j, .refl _ _⟩
  have hspace : Function.update sp c none j = sp j := Function.update_of_ne hj _ _
  have hf := hf₂.spares hj hl hspace
  exact (hw.trans hf).trans ⟨rfl, rfl, rfl, .refl _ _⟩

/-! ### `fork` -/

/-- A free slot has become a ready process; the others were framed. -/
theorem Runs.create {s : Space} (h : Runs L k a sp) (hi : sp i = none)
    (hw : World L k' (Function.update sp i (some s))) (hf : Frame i sp k k')
    (hv : Shows (k'.processTable i) (some .ready)) :
    Runs L k' (a.move (.create i)) (Function.update sp i (some s)) ∧
      ∀ j, sp j ≠ none → Spares j sp (Function.update sp i (some s)) k k' := by
  refine ⟨⟨hw, fun j => ?_, fun j => ?_, hf.current.trans h.current, hf.ttb.trans h.ttb,
    hf.round.trans h.round⟩, fun j hj => ?_⟩
  · by_cases hj : j = i
    · simp [hj, Tasks.move, Move.apply]
    · simp [hj, Tasks.move, Move.apply, h.live]
  · by_cases hj : j = i
    · subst hj
      simpa [Tasks.move, Move.apply] using hv
    · simp only [Tasks.move, Move.apply, Function.update_of_ne hj]
      by_cases hl : sp j = none
      · rw [(h.live j).mp hl]
        exact (hf.unused j hj hl).trans ((h.view j).unused_iff.mpr ((h.live j).mp hl))
      · rw [hf.table j hj hl]
        exact h.view j
  · have hji : j ≠ i := slot_ne hj hi
    exact hf.spares hji hj (Function.update_of_ne hji _ _)

/-- **`fork`** refines its abstract counterpart; every process there was is spared. -/
theorem wp_syscallFork (h : Runs L k a sp) (hc : a.current = some c)
    (hr : a.table c = some .ready) :
    wp (Small (bootArena L)) (syscallFork L) k fun out k' => out = a.fork.2 ∧ ∃ sp',
      Runs L k' a.fork.1 sp' ∧ (∀ j, sp j ≠ none → Spares j sp sp' k k') ∧
      ∀ j, sp j = none → sp' j ≠ none →
        (k'.processTable j).context = childContext (k.processTable c).context := by
  obtain ⟨s, hs⟩ := h.space (i := c) (by rw [hr]; simp)
  refine wp_mono (wp_fork h.world h.unused (h.current.trans hc) (h.ttb.trans hc) hs) ?_
  rw [Tasks.fork, ← h.firstUnused]
  rintro out k' (⟨hfull, rfl, rfl⟩ | ⟨i, s', rfl, hf⟩)
  · rw [hfull]
    exact ⟨rfl, sp, h, fun j _ => .refl j sp _, fun j hj hj' => absurd hj hj'⟩
  · rw [hf.unused]
    have hi : sp i = none := h.unused i (firstUnused_some hf.unused)
    obtain ⟨hruns, hsp⟩ := h.create hi hf.world hf.frame ⟨hf.state, hf.waitPid⟩
    refine ⟨rfl, _, hruns, hsp, fun j hj hj' => ?_⟩
    obtain rfl : j = i := by
      by_contra hne
      rw [Function.update_of_ne hne] at hj'
      exact hj' hj
    exact hf.context

/-! ### `exec` -/

theorem Kept.frame (h : Kept sp k k') (i : Fin 10) : Frame i sp k k' := by
  refine ⟨fun j _ hj => h.table j hj, fun j _ hj => h.vms j hj, fun j _ hj => h.unused j hj,
    h.kernelVm, h.current, h.ttb, h.round, h.fat, h.ram.mono (held_mono ?_ ?_)⟩
  · rw [allPages_eq i]
    exact fun p hp => Multiset.mem_add.mpr (.inr hp)
  · rw [allTables_eq i]
    exact fun t ht => Multiset.mem_add.mpr (.inr ht)

theorem Runs.kept (h : Runs L k a sp) (hw : World L k' sp) (hk : Kept sp k k') :
    Runs L k' a sp := by
  refine ⟨hw, h.live, fun j => ?_, hk.current.trans h.current, hk.ttb.trans h.ttb,
    hk.round.trans h.round⟩
  by_cases hl : sp j = none
  · rw [(h.live j).mp hl]
    exact (hk.unused j hl).trans ((h.view j).unused_iff.mpr ((h.live j).mp hl))
  · rw [hk.table j hl]
    exact h.view j

/-- A ready process has got another program. -/
theorem Runs.replaced {s : Space} (h : Runs L k a sp) (hr : a.table c = some .ready)
    (hp : Replaced L sp k c s k') :
    Runs L k' a (Function.update sp c (some s)) ∧
      ∀ j ≠ c, sp j ≠ none → Spares j sp (Function.update sp c (some s)) k k' := by
  have hv := h.view c
  rw [hr] at hv
  refine ⟨⟨hp.world, fun j => ?_, fun j => ?_, hp.frame.current.trans h.current,
    hp.frame.ttb.trans h.ttb, hp.frame.round.trans h.round⟩, fun j hj hl => ?_⟩
  · by_cases hj : j = c
    · simp [hj, hr]
    · simp [hj, h.live]
  · by_cases hj : j = c
    · subst hj
      rw [hr]
      exact ⟨hp.state, hp.waitPid.trans hv.2⟩
    · by_cases hl : sp j = none
      · rw [(h.live j).mp hl]
        exact (hp.frame.unused j hj hl).trans ((h.view j).unused_iff.mpr ((h.live j).mp hl))
      · rw [hp.frame.table j hj hl]
        exact h.view j
  · exact hp.frame.spares hj hl (Function.update_of_ne hj _ _)

/-- How an `exec` of the process in `c` ends: it fails and every process is spared, or the caller
starts a program and every other process is spared. -/
def ExecEnds (L : Layout) (a : Tasks) (c : Fin 10) (sp : Fin 10 → Option Space) (k : Kernel σ)
    (out : Outcome) (k' : Kernel σ) : Prop :=
  ∃ sp', Runs L k' a sp' ∧ (∀ j ≠ c, sp j ≠ none → Spares j sp sp' k k') ∧
    ((out = .ret (-1) ∧ Spares c sp sp' k k') ∨
      (out = .resume ∧ ∃ entry < 0x100000, (k'.processTable c).context = startContext entry))

theorem ExecEnds.refl (h : Runs L k a sp) : ExecEnds L a c sp k (.ret (-1)) k :=
  ⟨sp, h, fun j _ _ => .refl j sp k, .inl ⟨rfl, .refl c sp k⟩⟩

/-- What a system call of the process in `c` does: its abstract counterpart, with every other
process spared; the caller keeps its own unless it ends or starts a program, and a child has the
caller's registers. -/
structure Called (L : Layout) (a : Tasks) (c : Fin 10) (sp : Fin 10 → Option Space) (k : Kernel σ)
    (code arg1 : Nat) (out : Outcome) (k' : Kernel σ) (a' : Tasks)
    (sp' : Fin 10 → Option Space) : Prop where
  answers : a.Answers c code arg1 a' out
  runs : Runs L k' a' sp'
  others : ∀ j ≠ c, sp j ≠ none → Spares j sp sp' k k'
  caller : code ≠ 2 → Spares c sp sp' k k' ∨
    (code = 5 ∧ out = .resume ∧
      ∃ entry < 0x100000, (k'.processTable c).context = startContext entry)
  child : ∀ j, sp j = none → sp' j ≠ none →
    (k'.processTable j).context = childContext (k.processTable c).context

theorem Called.of_ret {code arg1 : Nat} {r : Int} (h : Runs L k a sp)
    (ha : a.Answers c code arg1 a (.ret r)) (dev : σ) :
    Called L a c sp k code arg1 (.ret r) (k.setDev dev) a sp := by
  refine ⟨ha, ⟨h.world.setDev dev, h.live, h.view, h.current, h.ttb, h.round⟩, fun j _ _ => ?_,
    fun _ => .inl ?_, fun j hj hj' => absurd hj hj'⟩
  · exact ⟨rfl, rfl, rfl, .refl _ _⟩
  · exact ⟨rfl, rfl, rfl, .refl _ _⟩

section Device

variable [BlockDevice σ]

/-- A program is loaded and started, or everything is spared. -/
theorem wp_execProgram {name : List UInt8} (h : Runs L k a sp) (hc : a.current = some c)
    (hr : a.table c = some .ready) :
    wp (Small (bootArena L)) (execProgram L c name) k (ExecEnds L a c sp k) := by
  obtain ⟨s, hs⟩ := h.space (i := c) (by rw [hr]; simp)
  refine wp_seq (wp_procLoadProgram h.world h.unused hs) ?_
  rintro ok k₁ ⟨⟨rfl, hw, hk⟩ | ⟨rfl, t, hp⟩, -⟩
  · exact wp_pure ⟨sp, h.kept hw hk, fun j _ hj => hk.spares hj,
      .inl ⟨rfl, hk.spares (live_of_space hs)⟩⟩
  · obtain ⟨hruns, hsp⟩ := h.replaced hr hp
    have hk : ({ k₁ with currentProcess := some c, ttb := some c } : Kernel σ) = k₁.runAs a := by
      rw [Kernel.runAs, hc, ← hruns.round]
    refine wp_bind (wp_modify_bind (wp_get_bind (wp_bind (wp_deref
      (hp.world.slot c t (Function.update_self _ _ _)).fields.vm (wp_modify (wp_pure ?_))))))
    dsimp only
    rw [hk]
    exact ⟨_, hruns.runAs rfl, fun j hj hl => (hsp j hj hl).trans (.runAs j _ _ _),
      .inr ⟨rfl, hp.context⟩⟩

/-- **`exec`** reads the name through the caller's tables and changes nothing of the tasks; without
a name it changes nothing at all. -/
theorem wp_syscallExecLog {userName : Nat} (h : Runs L k a sp) (hc : a.current = some c)
    (hr : a.table c = some .ready) :
    wp (Small (bootArena L)) (syscallExecLog L userName) k fun r k' =>
      r.2.Of k c userName ∧ ExecEnds L a c sp k r.1 k' ∧
        (r.2.load = none → r.1 = .ret (-1) ∧ k' = k) := by
  obtain ⟨s, hs⟩ := h.space (i := c) (by rw [hr]; simp)
  refine wp_seq (wp_scanUserName h.world (h.current.trans hc) hs) ?_
  rintro scan _ ⟨rfl, hscan⟩
  cases hload : scan.load with
  | none => exact wp_pure ⟨hscan, .refl h, fun _ => ⟨rfl, rfl⟩⟩
  | some call =>
      obtain ⟨p, name⟩ := call
      obtain ⟨rfl, -⟩ := (hscan.loads p name).mp hload
      refine wp_map (wp_mono (wp_execProgram h hc hr) fun out k' hends => ?_)
      exact ⟨hscan, hends, fun hnone => by simp [hload] at hnone⟩

theorem wp_syscallExec {userName : Nat} (h : Runs L k a sp) (hc : a.current = some c)
    (hr : a.table c = some .ready) :
    wp (Small (bootArena L)) (syscallExec L userName) k (ExecEnds L a c sp k) := by
  rw [syscallExec_eq]
  exact wp_map (wp_mono (wp_syscallExecLog h hc hr) fun _ _ hr => hr.2.1)

/-! ### The dispatcher -/

/-- **`handle_syscall`** refines what the abstract tasks do at a system call. -/
theorem wp_handleSyscall {key : Int} {code arg1 : Nat} (h : Runs L k a sp)
    (hc : a.current = some c) (hr : a.table c = some .ready) :
    wp (Small (bootArena L)) (handleSyscall L key code arg1) k fun out k' =>
      ∃ a' sp', Called L a c sp k code arg1 out k' a' sp' := by
  have hret : ∀ r, a.Answers c code arg1 a (.ret r) →
      ∃ a' sp', Called L a c sp k code arg1 (.ret r) k a' sp' := fun r ha =>
    ⟨a, sp, .of_ret h ha k.dev⟩
  unfold handleSyscall
  split
  · exact wp_pure (hret _ ⟨rfl, _, rfl⟩)
  · exact wp_pure (hret _ ⟨rfl, _, rfl⟩)
  · refine wp_mono (wp_syscallExit h hc hr) ?_
    rintro out k' ⟨rfl, hruns, hsp⟩
    refine ⟨_, _, rfl, hruns, hsp, fun hne => absurd rfl hne, fun j hj hj' => ?_⟩
    by_cases hjc : j = c
    · simp [hjc] at hj'
    · rw [Function.update_of_ne hjc] at hj'
      exact absurd hj hj'
  · refine wp_get_bind (wp_bind (wp_deref (h.current.trans hc) (wp_get_bind (wp_pure ?_))))
    exact hret _ ⟨rfl, _, rfl⟩
  · refine wp_mono (wp_syscallFork h hc hr) ?_
    rintro out k' ⟨rfl, sp', hruns, hsp, hchild⟩
    obtain ⟨s, hs⟩ := h.space (i := c) (by rw [hr]; simp)
    exact ⟨_, sp', rfl, hruns, fun j _ hj => hsp j hj,
      fun _ => .inl (hsp c (live_of_space hs)), hchild⟩
  · refine wp_mono (wp_syscallExec h hc hr) ?_
    rintro out k' ⟨sp', hruns, hsp, hout⟩
    have hchild : ∀ j, sp j = none → sp' j ≠ none →
        (k'.processTable j).context = childContext (k.processTable c).context := fun j hj hj' =>
      absurd ((hruns.live j).mpr ((h.live j).mp hj)) hj'
    rcases hout with ⟨rfl, hself⟩ | ⟨rfl, hself⟩
    · exact ⟨a, sp', ⟨rfl, .inl rfl⟩, hruns, hsp, fun _ => .inl hself, hchild⟩
    · exact ⟨a, sp', ⟨rfl, .inr rfl⟩, hruns, hsp, fun _ => .inr ⟨rfl, rfl, hself⟩, hchild⟩
  · refine wp_mono (wp_schedule h) ?_
    rintro out k' ⟨rfl, rfl⟩
    exact ⟨_, sp, rfl, h.schedule, fun j _ _ => .runAs j sp k _, fun _ => .inl (.runAs c sp k _),
      fun j hj hj' => absurd hj hj'⟩
  · refine wp_mono (wp_syscallWait h hc hr) ?_
    rintro out k' ⟨rfl, hruns, hsp⟩
    exact ⟨_, sp, rfl, hruns, fun j _ _ => hsp j, fun _ => .inl (hsp c),
      fun j hj hj' => absurd hj hj'⟩
  · have ha : a.Answers c 8 arg1 a (.ret (dirLoop k.fat 0 k.dev).1) := ⟨rfl, _, rfl⟩
    exact wp_get_bind (wp_set_bind (wp_pure ⟨a, sp, .of_ret h ha _⟩))
  · refine wp_pure (hret _ ?_)
    unfold Tasks.Answers
    split
    all_goals first | contradiction | exact ⟨rfl, _, rfl⟩

/-! ### `mon_execute` -/

/-- What the monitor's `execute` does: nothing, or a new process with a program is there and the
next one runs. -/
theorem wp_monExecute {name : List UInt8} (h : Runs L k a sp) :
    wp (Small (bootArena L)) (monExecute L name) k fun out k' =>
      (out = .ret 0 ∧ Runs L k' a sp ∧ ∀ j, sp j ≠ none → Spares j sp sp k k') ∨
      ∃ i sp', a.firstFree = some i ∧ sp i = none ∧ out = (a.move (.create i)).schedule.2 ∧
        Runs L k' (a.move (.create i)).schedule.1 sp' ∧
        (∀ j, sp j ≠ none → Spares j sp sp' k k') ∧
        ∃ entry < 0x100000, (k'.processTable i).context = startContext entry := by
  refine wp_seq (wp_procCreate h.world h.unused) ?_
  rintro child k₁ (⟨rfl, rfl, hfull⟩ | ⟨i, s, rfl, hcr⟩)
  · exact wp_pure (.inl ⟨rfl, h, fun j _ => .refl j sp _⟩)
  · have hunused := firstUnused_some hcr.unused
    have hi := h.unused i hunused
    refine wp_seq (wp_procLoadProgram hcr.world (hcr.unused_of h.unused)
      (Function.update_self _ _ _)) ?_
    rintro ok k₂ ⟨⟨rfl, hw, hk⟩ | ⟨rfl, t, hp⟩, -⟩
    · refine wp_seq (wp_procFree hw (Function.update_self _ _ _)) ?_
      rintro - k₃ ⟨m, rfl, h₃, hf₃⟩
      rw [Function.update_idem, ← hi, Function.update_eq_self] at h₃
      have hkept := ((hcr.frame.trans (hk.frame i).update).trans hf₃.update).kept hi (by
        rw [setSlot_processTable]
        exact hunused.symm)
      exact wp_pure (.inl ⟨rfl, h.kept h₃ hkept, fun j hj => hkept.spares hj⟩)
    · have hw := hp.world
      rw [Function.update_idem] at hw
      have hv : Shows (k₂.processTable i) (some .ready) := by
        refine ⟨hp.state, hp.waitPid.trans ?_⟩
        rw [hcr.process]
        rfl
      obtain ⟨hruns, hsp⟩ := h.create hi hw (hcr.frame.trans hp.frame.update) hv
      refine wp_mono (wp_schedule hruns) ?_
      rintro out k' ⟨rfl, rfl⟩
      exact .inr ⟨i, _, h.firstUnused ▸ hcr.unused, hi, rfl, hruns.schedule,
        fun j hj => (hsp j hj).trans (.runAs j _ _ _), hp.context⟩

end Device

end Arunos
