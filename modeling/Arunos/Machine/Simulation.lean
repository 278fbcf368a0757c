import Arunos.Machine.Memory
import Arunos.Machine.Os
import Arunos.Machine.Waiting

/-!
# Machine — Simulation — the kernel implements the abstract system

`Kernel.os` reads the abstract system off a kernel state: the tasks from the process table, and the
memory of each process through its page tables.  On a disk that serves its contents each handler
does to this view what the operation of its name does (`wp_handler_os`), the start does what
`Os.boot` says (`wp_cEntry_os`), and so whole runs are the same: event by event, and each event that
is possible for one is possible for the other (`run_view`).

Since the abstract system knows nothing of what memory held at power-on, of where the allocator puts
things or of the driver, programs can observe nothing of them.
-/

namespace Arunos

variable {σ : Type} {L : Layout} {k k' : Kernel σ} {sp sp' : Fin 10 → Option Space}
  {a a' : Tasks} {i j c : Fin 10} {F : Prop}

/-! ### The view -/

/-- The tasks that a process table shows. -/
def Kernel.tasks (k : Kernel σ) : Tasks where
  table := statusTable k
  current := k.currentProcess
  round := Fin.ofNat 10 k.roundRobinIndex

/-- The abstract system of a kernel state. -/
def Kernel.os (k : Kernel σ) : Os where
  tasks := k.tasks
  body i :=
    if (k.processTable i).state = .UNUSED then none
    else some ⟨userMemory k i, (k.processTable i).context⟩

/-- The abstract system of a machine. -/
def Machine.view : Machine σ → OsMachine
  | .user k cpu => .user k.os cpu
  | .panicked k => .panicked k.os
  | .halted _ => .halted

theorem Runs.tasks (h : Runs L k a sp) : k.tasks = a := by
  unfold Kernel.tasks
  obtain ⟨table, current, round⟩ := a
  congr 1
  · exact h.statusTable
  · exact h.current
  · rw [h.round]
    simp

/-- The body of a slot in a state of the tasks. -/
theorem Runs.body (h : Runs L k a sp) (i : Fin 10) : k.os.body i =
    (sp i).map fun s => ⟨spaceMemory s k.mem.ram, (k.processTable i).context⟩ := by
  have hlive : (k.processTable i).state = .UNUSED ↔ sp i = none :=
    (h.view i).unused_iff.trans (h.live i).symm
  cases hi : sp i with
  | none => exact if_pos (hlive.mpr hi)
  | some s =>
      rw [Option.map_some, ← h.world.userMemory hi]
      exact if_neg fun hu => by simp [hlive.mp hu] at hi

theorem Spares.body (h : Spares j sp sp' k k') (hr : Runs L k a sp) (hr' : Runs L k' a' sp') :
    k'.os.body j = k.os.body j := by
  have hctx := congrArg Process.context h.process
  rw [hr.body, hr'.body, h.space]
  simp only [Process.body] at hctx
  rw [hctx]
  cases hj : sp j with
  | none => rfl
  | some s =>
      have hram := h.ram
      rw [hj] at hram
      rw [Option.map_some, Option.map_some, spaceMemory_congr fun p hp x hx =>
        hram.page hp (hr.world.page_aligned hj hp).1 (by omega) (by omega)]

/-- Every process but the one in `i` is spared, or was not there and is not. -/
theorem Runs.os_eq (hr : Runs L k a sp) (hr' : Runs L k' a' sp') (i : Fin 10)
    (h : ∀ j ≠ i, sp j ≠ none → Spares j sp sp' k k')
    (hnone : ∀ j ≠ i, sp j = none → sp' j = none) :
    k'.os = { k.os.setBody i (k'.os.body i) with tasks := a' } := by
  refine Os.ext hr'.tasks (funext fun j => ?_)
  show k'.os.body j = Function.update k.os.body i (k'.os.body i) j
  by_cases hj : j = i
  · rw [hj, Function.update_self]
  rw [Function.update_of_ne hj]
  by_cases hl : sp j = none
  · rw [hr.body, hr'.body, hl, hnone j hj hl]
    rfl
  · exact (h j hj hl).body hr hr'

/-- Every process is spared. -/
theorem Runs.os_spared (hr : Runs L k a sp) (hr' : Runs L k' a' sp)
    (h : ∀ j, sp j ≠ none → Spares j sp sp k k') : k'.os = { k.os with tasks := a' } := by
  have hself : k'.os.body 0 = k.os.body 0 := by
    by_cases hl : sp 0 = none
    · rw [hr.body, hr'.body, hl]
      rfl
    · exact (h 0 hl).body hr hr'
  rw [hr.os_eq hr' 0 (fun j _ => h j) fun j _ hj => hj, hself, Os.setBody, Function.update_eq_self]

/-! ### The volume stays mounted -/

theorem retains_onMem {α : Type} (x : MemM α) : Retains Kernel.fat (onMem x : KM σ α) := fun k =>
  wp_onMem (wp_mono (wp_trivial x k.mem) fun _ _ _ => rfl)

theorem retains_deref {α : Type} (p : Option α) : Retains Kernel.fat (deref p : KM σ α) := by
  cases p with
  | none => exact retains_fault
  | some x => exact retains_pure x

theorem retains_setProcess (i : Fin 10) (f : Process → Process) :
    Retains Kernel.fat (setProcess i f : KM σ Unit) := retains_modify fun _ => rfl

theorem retains_procStart (i : Fin 10) : Retains Kernel.fat (procStart i : KM σ Unit) := by
  refine retains_bind (retains_modify fun _ => rfl) fun _ => retains_bind retains_get fun _ => ?_
  exact retains_bind (retains_deref _) fun _ => retains_modify fun _ => rfl

theorem retains_scheduleLoop (n : Nat) : Retains Kernel.fat (scheduleLoop n : KM σ Outcome) := by
  induction n with
  | zero => exact retains_pure _
  | succ n ih =>
      refine retains_bind (retains_modify fun _ => rfl) fun _ => ?_
      refine retains_bind retains_get fun k => retains_bind (retains_deref _) fun proc => ?_
      refine retains_ite (retains_bind (retains_modify fun _ => rfl) fun _ => ?_) ih
      refine retains_bind (retains_procStart proc) fun _ => retains_pure _

theorem retains_procShrinkMemory (i : Fin 10) (n : Nat) :
    Retains Kernel.fat (procShrinkMemory i n : KM σ Unit) := by
  induction n with
  | zero => exact retains_pure _
  | succ n ih =>
      refine retains_bind retains_get fun _ => retains_bind (retains_deref _) fun _ => ?_
      refine retains_bind retains_get fun _ => retains_bind (retains_onMem _) fun _ => ?_
      exact retains_bind (retains_setProcess _ _) fun _ => retains_ite (retains_pure _) ih

theorem retains_procFree (i : Fin 10) : Retains Kernel.fat (procFree i : KM σ Unit) := by
  refine retains_bind retains_get fun _ => retains_bind (retains_onMem _) fun _ => ?_
  refine retains_bind (retains_onMem _) fun _ => ?_
  refine retains_bind (retains_procShrinkMemory _ _) fun _ => ?_
  refine retains_bind (retains_deref _) fun _ => retains_bind retains_get fun _ => ?_
  exact retains_bind (retains_onMem _) fun _ => retains_setProcess _ _

theorem retains_syscallExit : Retains Kernel.fat (syscallExit : KM σ Outcome) := by
  refine retains_bind retains_get fun k => ?_
  cases k.currentProcess with
  | none => exact retains_pure _
  | some c =>
      refine retains_bind (retains_modify fun _ => rfl) fun _ => ?_
      refine retains_bind retains_get fun _ => ?_
      refine retains_bind (retains_modify fun _ => rfl) fun _ => ?_
      refine retains_bind (retains_procFree c) fun _ => ?_
      exact retains_bind (retains_modify fun _ => rfl) fun _ => retains_scheduleLoop 10

theorem retains_syscallWait (pid : Int) : Retains Kernel.fat (syscallWait pid : KM σ Outcome) := by
  unfold syscallWait
  cases procGet pid with
  | none => exact retains_pure _
  | some d =>
      refine retains_bind retains_get fun _ => retains_ite ?_ (retains_pure _)
      refine retains_bind retains_get fun _ => retains_bind (retains_deref _) fun _ => ?_
      exact retains_bind (retains_setProcess _ _) fun _ => retains_scheduleLoop 10

/-! ### The handlers -/

/-- A handler does to the abstract system what the operation with the result `r` does. -/
def Does (k : Kernel σ) (r : Os × Outcome) (out : Outcome) (k' : Kernel σ) : Prop :=
  (k'.os, out) = r ∧ k'.fat = k.fat

theorem wp_schedule_os (h : Runs L k a sp) : wp F schedule k (Does k k.os.schedule) := by
  refine wp_mono (wp_schedule h) ?_
  rintro out _ ⟨rfl, rfl⟩
  refine ⟨?_, rfl⟩
  rw [h.os_spared h.schedule fun j _ => .runAs j sp k _, Os.schedule, Os.after,
    show k.os.tasks = a from h.tasks]

theorem wp_syscallExit_os (h : Runs L k a sp) (hc : a.current = some c)
    (hr : a.table c = some .ready) : wp F syscallExit k (Does k (k.os.exit c)) := by
  refine wp_mono (wp_and (wp_syscallExit h hc hr) (retains_syscallExit k)) ?_
  rintro out k' ⟨⟨rfl, hruns, hsp⟩, hfat⟩
  refine ⟨?_, hfat⟩
  rw [h.os_eq hruns c hsp fun j hj hn => by rw [Function.update_of_ne hj, hn], hruns.body c,
    Function.update_self, Os.exit, Os.after, show k.os.tasks = a from h.tasks]
  rfl

theorem wp_syscallWait_os {pid : Int} (h : Runs L k a sp) (hc : a.current = some c)
    (hr : a.table c = some .ready) : wp F (syscallWait pid) k (Does k (k.os.wait c pid)) := by
  refine wp_mono (wp_and (wp_syscallWait h hc hr) (retains_syscallWait pid k)) ?_
  rintro out k' ⟨⟨rfl, hruns, hsp⟩, hfat⟩
  refine ⟨?_, hfat⟩
  rw [h.os_spared hruns fun j _ => hsp j, Os.wait, Os.after, show k.os.tasks = a from h.tasks]

/-- The child has a copy of its parent's memory. -/
theorem Forked.memory {s s' : Space} (h : Forked L sp k c i s s' k') :
    spaceMemory s' k'.mem.ram = spaceMemory s k.mem.ram := by
  funext v
  unfold spaceMemory
  rw [h.frames]
  by_cases hv : v < 4096 * s.frames.length
  · rw [if_pos hv, if_pos hv, h.heap v hv]
  · rw [if_neg hv, if_neg hv, h.userStack _ (Nat.mod_lt _ (by decide))]

theorem wp_syscallFork_os (h : Runs L k a sp) (hc : a.current = some c)
    (hr : a.table c = some .ready) :
    wp (Small (bootArena L)) (syscallFork L) k (Does k (k.os.fork c)) := by
  obtain ⟨s, hs⟩ := h.space (i := c) (by rw [hr]; simp)
  refine wp_mono (wp_fork h.world h.unused (h.current.trans hc) (h.ttb.trans hc) hs) ?_
  have htasks : k.os.tasks = a := h.tasks
  rw [Os.fork, htasks, Tasks.fork, ← h.firstUnused]
  rintro out k' (⟨hfull, rfl, rfl⟩ | ⟨i, s', rfl, hf⟩)
  · rw [hfull]
    refine ⟨?_, rfl⟩
    rw [Os.after, ← htasks]
  · rw [hf.unused]
    have hi : sp i = none := h.unused i (firstUnused_some hf.unused)
    obtain ⟨hruns, hsp⟩ := h.create hi hf.world hf.frame ⟨hf.state, hf.waitPid⟩
    refine ⟨?_, hf.frame.fat⟩
    rw [h.os_eq hruns i (fun j _ => hsp j) fun j hj hn => by rw [Function.update_of_ne hj, hn],
      hruns.body i, Function.update_self, h.body c, hs, Option.map_some, Option.map_some,
      hf.memory, hf.context]
    rfl

/-- The name a process has at an address. -/
theorem nameIn_eq_some {n addr : Nat} {name : List UInt8} :
    nameIn (userMemory k i) n addr = some name ↔ NameAt k i n addr name := by
  induction n generalizing addr name with
  | zero => exact ⟨nofun, fun h => absurd h.fits (by omega)⟩
  | succ n ih =>
      rw [nameIn]
      by_cases hr : UserReadable k i addr
      · have hbyte : userMemory k i addr = some (byteAt k i addr) := if_pos hr
        rw [hbyte]
        dsimp only
        by_cases h₀ : byteAt k i addr = 0
        · rw [if_pos h₀, nameAt_of_nul hr h₀, Option.some.injEq, eq_comm]
        · rw [if_neg h₀, nameAt_of_byte hr h₀, Option.map_eq_some_iff]
          simp only [ih, eq_comm]
      · have hnone : userMemory k i addr = none := not_not.mp (mt userMemory_ne_none.mp hr)
        rw [hnone]
        exact ⟨nofun, fun h => absurd h.start hr⟩

/-- A new slot is not free. -/
theorem Created.firstUnused {s : Space} (hcr : Created L sp k i s k') (h : Runs L k a sp) :
    firstUnused k' = (a.move (.create i)).firstFree := by
  refine congrArg (fun p => List.find? p (List.finRange 10)) (funext fun j => ?_)
  refine decide_eq_decide.mpr ?_
  by_cases hj : j = i
  · subst hj
    rw [hcr.process]
    simp [createdProcess, Tasks.move, Move.apply]
  · have hstate : (k'.processTable j).state = (k.processTable j).state := by
      by_cases hl : sp j = none
      · exact hcr.frame.unused j hj hl
      · rw [hcr.frame.table j hj hl]
    rw [hstate, (h.view j).unused_iff]
    simp [Tasks.move, Move.apply, hj]

/-! ### What programs do -/

/-- Saving the registers. -/
theorem Runs.os_saveContext (h : Runs L k a sp) (hc : a.current = some c) (cpu : Context) :
    (Arunos.saveContext k cpu).os = k.os.save c cpu := by
  obtain ⟨h₁, hcpu⟩ := h.saveContext hc cpu
  have hsave : Arunos.saveContext k cpu =
      k.setEntry c { k.processTable c with context := cpu } := by
    rw [Arunos.saveContext, h.current, hc]
  have htasks : k.os.tasks = a := h.tasks
  refine Os.ext (h₁.tasks.trans htasks.symm) (funext fun j => ?_)
  rw [h₁.body]
  show _ = Function.update k.os.body c _ j
  by_cases hj : j = c
  · subst hj
    rw [Function.update_self, h.body, Option.map_map, hcpu, hsave]
    rfl
  · rw [Function.update_of_ne hj, h.body, hsave, setEntry_of_ne hj]
    rfl

/-- A byte stored at a usable address of a process. -/
theorem World.spaceMemory_store {s : Space} (h : World L k sp) (hs : sp c = some s) {v : Nat}
    (hv : UserReadable k c v) :
    ∃ p ∈ s.pages, spaceMap L s (v / 4096) = some (pageEntry AP_RW_RW (v2p p / 4096)) ∧
      ∀ r x, spaceMemory s (Function.update r (p + v % 4096) x) =
        Function.update (spaceMemory s r) v (some x) := by
  have hd := (h.slot c s hs).fields
  have hapart := h.apart hs
  have hframes := hd.frames
  have hstack : s.userStack ∈ s.pages := s.stack_sub _ (by simp)
  have hal := (h.page_aligned hs hstack).1
  have hout := (h.stack_notMem hs).2
  rcases hv with hheap | ⟨hlo, hhi⟩
  · rw [hd.heapSize] at hheap
    have hf := List.getElem?_eq_getElem (show v / 4096 < s.frames.length by omega)
    obtain ⟨hm, hp⟩ := spaceMap_frame (L := L) hf
    have hframe := List.mem_of_getElem? hf
    generalize s.frames[v / 4096] = frame at hf hm hp hframe
    refine ⟨frame, hp, hm, fun r x => funext fun a => ?_⟩
    have hne : s.userStack ≠ frame := fun e => hout (e ▸ hframe)
    have hal' := hapart.aligned frame hframe
    have hstore := hapart.heapBytes_store hf (show v % 4096 + 1 ≤ 4096 by omega) r fun _ => x
    rw [← update_eq_storeBytes] at hstore
    by_cases hav : a = v
    · subst hav
      rw [Function.update_self, spaceMemory, if_pos hheap, hstore, storeBytes, if_pos (by omega)]
    rw [Function.update_of_ne hav]
    unfold spaceMemory
    rw [hstore, storeBytes_other (by omega),
      Function.update_of_ne (show s.userStack + a % 4096 ≠ frame + v % 4096 by omega)]
  · refine ⟨s.userStack, hstack, ?_, fun r x => funext fun a => ?_⟩
    · rw [show v / 4096 = 0x7fffd by omega]
      exact (spaceMap_stacks L hframes).1
    by_cases hav : a = v
    · subst hav
      rw [Function.update_self, spaceMemory, if_neg (by omega), if_pos ⟨hlo, hhi⟩,
        Function.update_self]
    rw [Function.update_of_ne hav]
    unfold spaceMemory
    by_cases ha : a < 4096 * s.frames.length
    · rw [if_pos ha, if_pos ha]
      refine congrArg some (heapBytes_congr (fun p hp y hy => Function.update_of_ne ?_ _ _) ha)
      have hne : p ≠ s.userStack := fun e => hout (e ▸ hp)
      have hal' := hapart.aligned p hp
      omega
    · rw [if_neg ha, if_neg ha]
      refine if_ctx_congr Iff.rfl (fun hin => congrArg some ?_) fun _ => rfl
      exact Function.update_of_ne (by omega) _ _

/-- A program's store goes where the program has memory. -/
theorem Runs.userAddress_none {s : Space} (h : Runs L k a sp) (hc : a.current = some c)
    (hs : sp c = some s) {v : Nat} (hv : ¬UserReadable k c v) : userAddress k v = none := by
  have hslot := h.world.slot c s hs
  have hactive : activeVm k = k.processVm c := by rw [activeVm, h.ttb, hc]
  rw [userAddress, hactive, hslot.walk]
  cases hm : spaceMap L s (v / 4096) with
  | none => rfl
  | some e =>
      refine if_neg fun hap => hv ?_
      rcases spaceMap_some hm with ⟨frame, hf, -⟩ | ⟨hp, -⟩ | ⟨-, rfl⟩ | ⟨-, hd⟩
      · obtain ⟨hlt, -⟩ := List.getElem?_eq_some_iff.mp hf
        left
        rw [hslot.fields.heapSize]
        omega
      · exact .inr (by omega)
      · cases hap
      · cases hd.symm.trans hap

/-- **The store of a program** is the store of the abstract system. -/
theorem Runs.os_store (h : Runs L k a sp) (hc : a.current = some c) (hr : a.table c = some .ready)
    (v : Nat) (x : UInt8) :
    ((userAddress k v).map fun addr => (k.setRam (Function.update k.mem.ram addr x)).os) =
      k.os.store v x := by
  obtain ⟨s, hs⟩ := h.space (i := c) (by rw [hr]; simp)
  have htasks : k.os.tasks = a := h.tasks
  have hbody := h.body c
  rw [hs, Option.map_some] at hbody
  rw [Os.store, htasks, hc, Option.bind_some, hbody, Option.bind_some]
  by_cases hv : UserReadable k c v
  · obtain ⟨p, hp, hm, hstore⟩ := h.world.spaceMemory_store hs hv
    have haddr : userAddress k v = some (p + v % 4096) := by
      have hactive : activeVm k = k.processVm c := by rw [activeVm, h.ttb, hc]
      have hres := h.world.resolve hs hm hp
      rw [(h.world.focus hs).resolve hm] at hres
      rw [userAddress, hactive, (h.world.slot c s hs).walk, hm, ← hres]
      rfl
    have hne : spaceMemory s k.mem.ram v ≠ none := by
      rw [← h.world.userMemory hs]
      exact userMemory_ne_none.mpr hv
    have hruns := h.store hc hr haddr x
    obtain ⟨s', hs', hw⟩ := h.store_writes hc hr haddr x
    cases hs.symm.trans hs'
    have hf := (h.world.write hs hw).2
    rw [haddr, Option.map_some, Body.store, if_neg hne, Option.map_some]
    refine congrArg some ?_
    rw [h.os_eq hruns c (fun j hj hl => hf.spares hj hl rfl) fun j _ hn => hn, hruns.body c, hs,
      Option.map_some, ← htasks]
    show { k.os.setBody c (some ⟨spaceMemory s (Function.update k.mem.ram _ x), _⟩) with
      tasks := k.os.tasks } = _
    rw [hstore]
    rfl
  · have hnone : spaceMemory s k.mem.ram v = none := by
      rw [← h.world.userMemory hs]
      exact not_not.mp (mt userMemory_ne_none.mp hv)
    rw [h.userAddress_none hc hs hv, Body.store, if_pos hnone]
    rfl

/-! ### Loading programs -/

section Device

variable [BlockDevice σ] {fails : Prop} {progs : List UInt8 → Option Program} {name : List UInt8}

omit [BlockDevice σ] in
/-- The handler does `good`, or the disk has failed and it does `bad`. -/
def Tries (fails : Prop) (k : Kernel σ) (good bad : Os × Outcome) (out : Outcome)
    (k' : Kernel σ) : Prop :=
  Does k good out k' ∨ fails ∧ Does k bad out k'

theorem wp_execProgram_os (h : Runs L k a sp) (hc : a.current = some c)
    (hr : a.table c = some .ready) (hv : Provides σ k.fat fails progs) :
    wp (Small (bootArena L)) (execProgram L c name) k
      (Tries fails k (k.os.load progs c name) (k.os, .ret (-1))) := by
  obtain ⟨s, hs⟩ := h.space (i := c) (by rw [hr]; simp)
  have htasks : k.os.tasks = a := h.tasks
  rw [Os.load, htasks, ← h.firstUnused]
  refine wp_seq (wp_loadProgram _ h.world h.unused hs hv) ?_
  rintro ok k₁ (⟨rfl, hno, hw, hk⟩ | ⟨rfl, hfree, prog, t, hprog, hp, hmem, hctx⟩)
  · have hos : k₁.os = k.os := by
      rw [h.os_spared (h.kept hw hk) fun j hj => hk.spares hj, ← htasks]
    refine wp_pure ?_
    rcases hno with hfails | hno | hno
    · exact .inr ⟨hfails, by rw [hos], hk.fat⟩
    · exact .inl ⟨by rw [hno, hos], hk.fat⟩
    · refine .inl ⟨?_, hk.fat⟩
      rw [hno, hos]
      cases progs name <;> rfl
  · obtain ⟨hruns, hsp⟩ := h.replaced hr hp
    obtain ⟨i, hi⟩ := Option.ne_none_iff_exists'.mp hfree
    have hk : ({ k₁ with currentProcess := some c, ttb := some c } : Kernel σ) = k₁.runAs a := by
      rw [Kernel.runAs, hc, ← hruns.round]
    refine wp_bind (wp_modify_bind (wp_get_bind (wp_bind (wp_deref
      (hp.world.slot c t (Function.update_self _ _ _)).fields.vm (wp_modify (wp_pure ?_))))))
    dsimp only
    rw [hk, hruns.runAs_self, hprog, hi]
    refine .inl ⟨?_, hp.frame.fat⟩
    rw [h.os_eq hruns c hsp fun j hj hn => by rw [Function.update_of_ne hj, hn],
      hruns.body c, Function.update_self, Option.map_some, hctx,
      ← hp.world.userMemory (Function.update_self _ _ _), hmem, ← htasks]
    rfl

theorem wp_syscallExec_os {userName : Nat} (h : Runs L k a sp) (hc : a.current = some c)
    (hr : a.table c = some .ready) (hv : Provides σ k.fat fails progs) :
    wp (Small (bootArena L)) (syscallExec L userName) k
      (Tries fails k (k.os.exec progs c userName) (k.os, .ret (-1))) := by
  obtain ⟨s, hs⟩ := h.space (i := c) (by rw [hr]; simp)
  have hbody : k.os.body c = some ⟨userMemory k c, (k.processTable c).context⟩ := by
    rw [h.body, hs, Option.map_some, h.world.userMemory hs]
  rw [syscallExec_eq]
  refine wp_map (wp_seq (wp_scanUserName h.world (h.current.trans hc) hs) ?_)
  rintro scan k ⟨rfl, hscan⟩
  -- the scan is the lookup of the abstract system
  have hname : ∀ p x, scan.load = some (p, x) ↔ p = c ∧
      (if userName = 0 then none
        else (k.os.body c).bind fun b => nameIn b.memory 13 userName) = some x := by
    intro p x
    rw [hscan.loads, hbody, Option.bind_some, ← nameIn_eq_some]
    by_cases h₀ : userName = 0 <;> simp [h₀]
  rw [Os.exec]
  cases hload : scan.load with
  | none =>
      refine wp_pure ?_
      cases hx : (if userName = 0 then none
          else (k.os.body c).bind fun b => nameIn b.memory 13 userName) with
      | none => exact .inl ⟨rfl, rfl⟩
      | some x =>
          rw [(hname c x).mpr ⟨rfl, hx⟩] at hload
          cases hload
  | some call =>
      obtain ⟨p, x⟩ := call
      obtain ⟨rfl, hx⟩ := (hname p x).mp hload
      rw [hx]
      exact wp_map (wp_execProgram_os h hc hr hv)

theorem wp_monExecute_os (h : Runs L k a sp) (hv : Provides σ k.fat fails progs) :
    wp (Small (bootArena L)) (monExecute L name) k
      (Tries fails k (k.os.execute progs name) (k.os, .ret 0)) := by
  have htasks : k.os.tasks = a := h.tasks
  rw [Os.execute, htasks, ← h.firstUnused]
  refine wp_seq (wp_procCreate h.world h.unused) ?_
  rintro child k₁ (⟨rfl, rfl, hfull⟩ | ⟨i, s, rfl, hcr⟩)
  · rw [hfull]
    exact wp_pure (.inl ⟨rfl, rfl⟩)
  · have hunused := firstUnused_some hcr.unused
    have hi := h.unused i hunused
    rw [hcr.unused]
    dsimp only
    rw [← hcr.firstUnused h]
    refine wp_seq (wp_loadProgram _ hcr.world (hcr.unused_of h.unused) (Function.update_self _ _ _)
      (hcr.frame.fat ▸ hv)) ?_
    rintro ok k₂ (⟨rfl, hno, hw, hk⟩ | ⟨rfl, hfree, prog, t, hprog, hp, hmem, hctx⟩)
    · refine wp_seq (wp_procFree hw (Function.update_self _ _ _)) ?_
      rintro - k₃ ⟨m, hslot, h₃, hf₃⟩
      rw [Function.update_idem, ← hi, Function.update_eq_self] at h₃
      have hkept := ((hcr.frame.trans (hk.frame i).update).trans hf₃.update).kept hi (by
        rw [hslot, setSlot_processTable]
        exact hunused.symm)
      have hos : k₃.os = k.os := by
        rw [h.os_spared (h.kept h₃ hkept) fun j hj => hkept.spares hj, ← htasks]
      refine wp_pure ?_
      rcases hno with hfails | hno | hno
      · exact .inr ⟨hfails, by rw [hos], hkept.fat⟩
      · exact .inl ⟨by rw [hno, hos], hkept.fat⟩
      · refine .inl ⟨?_, hkept.fat⟩
        rw [hno, hos]
        cases progs name <;> rfl
    · have hw := hp.world
      rw [Function.update_idem] at hw
      obtain ⟨d, hd⟩ := Option.ne_none_iff_exists'.mp hfree
      have hshows : Shows (k₂.processTable i) (some .ready) := by
        refine ⟨hp.state, hp.waitPid.trans ?_⟩
        rw [hcr.process]
        rfl
      have hf := hcr.frame.trans hp.frame.update
      obtain ⟨hruns, hsp⟩ := h.create hi hw hf hshows
      refine wp_mono (wp_schedule_os hruns) ?_
      rintro out k' ⟨hos, hfat⟩
      refine .inl ⟨?_, hfat.trans hf.fat⟩
      rw [hos, hprog, hd, Os.schedule, show k₂.os.tasks = _ from hruns.tasks,
        h.os_eq hruns i (fun j _ => hsp j) fun j hj hn => by rw [Function.update_of_ne hj, hn],
        hruns.body i, Function.update_self, Option.map_some, hctx,
        ← hw.userMemory (Function.update_self _ _ _), hmem]
      rfl

/-- What a handler does: the trap of the abstract system, or what that does when the disk fails. -/
def MayTrap (fails : Prop) (progs : List UInt8 → Option Program) (os : Os) (c : Fin 10)
    (cpu : Context) (t : Trap) (r : Os × Outcome) : Prop :=
  r = os.trap progs c cpu t ∨ fails ∧ os.failed cpu t = some r

theorem wp_handleSyscall_os {key : Int} {code arg1 : Nat} (h : Runs L k a sp)
    (hc : a.current = some c) (hr : a.table c = some .ready) (hv : Provides σ k.fat fails progs) :
    wp (Small (bootArena L)) (handleSyscall L key code arg1) k fun out k' =>
      Does k (k.os.syscall progs c key code arg1) out k' ∨
        fails ∧ (code = 5 ∨ code = 8) ∧ Does k (k.os, .ret (-1)) out k' := by
  obtain ⟨s, hs⟩ := h.space (i := c) (by rw [hr]; simp)
  unfold handleSyscall
  split
  · exact wp_pure (.inl ⟨rfl, rfl⟩)
  · exact wp_pure (.inl ⟨rfl, rfl⟩)
  · exact wp_mono (wp_syscallExit_os h hc hr) fun _ _ => .inl
  · refine wp_get_bind (wp_bind (wp_deref (h.current.trans hc) (wp_get_bind (wp_pure ?_))))
    rw [(h.world.slot c s hs).fields.pid]
    exact .inl ⟨rfl, rfl⟩
  · exact wp_mono (wp_syscallFork_os h hc hr) fun _ _ => .inl
  · refine wp_mono (wp_syscallExec_os h hc hr hv) fun _ _ htries => ?_
    exact htries.imp_right fun hbad => ⟨hbad.1, .inl rfl, hbad.2⟩
  · exact wp_mono (wp_schedule_os h) fun _ _ => .inl
  · exact wp_mono (wp_syscallWait_os h hc hr) fun _ _ => .inl
  · refine wp_get_bind (wp_set_bind (wp_pure ?_))
    rcases hv.lists k.dev with hlist | ⟨hfails, hlist⟩
    · refine .inl ⟨?_, rfl⟩
      rw [hlist]
      rfl
    · refine .inr ⟨hfails, .inr rfl, ?_, rfl⟩
      rw [hlist]
      rfl
  · refine wp_pure (.inl ⟨?_, rfl⟩)
    unfold Os.syscall
    split
    all_goals first | contradiction | rfl

/-- **A handler does what the abstract system does.** -/
theorem wp_handler_os {cpu : Context} {t : Trap} (h : Runs L k a sp) (hc : a.current = some c)
    (hr : a.table c = some .ready) (hv : Provides σ k.fat fails progs) :
    wp (Small (bootArena L)) (t.handler L cpu) k fun out k' =>
      MayTrap fails progs k.os c cpu t (k'.os, out) ∧ k'.fat = k.fat := by
  cases t with
  | swi key =>
      refine wp_mono (wp_handleSyscall_os h hc hr hv) ?_
      rintro out k' (⟨hos, hfat⟩ | ⟨hfails, hcode, hos, hfat⟩)
      · exact ⟨.inl hos, hfat⟩
      · refine ⟨.inr ⟨hfails, ?_⟩, hfat⟩
        rw [Os.failed, if_pos hcode, hos]
  | timer => exact wp_mono (wp_schedule_os h) fun _ _ hd => ⟨.inl hd.1, hd.2⟩
  | uart => exact wp_pure ⟨.inl rfl, rfl⟩
  | execute name =>
      refine wp_mono (wp_monExecute_os h hv) ?_
      rintro out k' (⟨hos, hfat⟩ | ⟨hfails, hos, hfat⟩)
      · exact ⟨.inl hos, hfat⟩
      · exact ⟨.inr ⟨hfails, congrArg some hos.symm⟩, hfat⟩

/-! ### Steps and runs -/

variable {v : Volume} {m m' : Machine σ}

omit [BlockDevice σ] in
/-- The end of a handler. -/
theorem Tasks.Settled.view {out : Outcome} (h : Tasks.Settled c a' out) (hr : Runs L k' a' sp')
    (back : Int → Context) : (Arunos.leave back out k').view = Os.leave back (k'.os, out) := by
  cases h with
  | ret r hc ht => rfl
  | panic hs => rfl
  | resume d hd ht =>
      obtain ⟨s, hs⟩ := hr.space (i := d) (by rw [ht]; simp)
      have htasks : k'.os.tasks = a' := hr.tasks
      rw [Arunos.leave, switchToContext, hr.current, hd, Os.leave, htasks, hd, Option.bind_some,
        hr.body, hs]
      rfl

/-- The machine is in a state of some tasks with the volume `v` mounted, or it has halted. -/
def Mounted (L : Layout) (v : Volume) (m : Machine σ) : Prop :=
  (∃ a sp, InTasks L a sp m ∧ m.kernel.fat = v) ∨ ∃ k, m = .halted k

omit [BlockDevice σ] in
theorem saveContext_fat (k : Kernel σ) (cpu : Context) : (saveContext k cpu).fat = k.fat := by
  unfold saveContext
  split <;> rfl

/-- Every trap ends, as a trap of the abstract system may. -/
theorem exists_trap_may (t : Trap) (cpu : Context) (h : Runs L k a sp) (hc : a.current = some c)
    (hr : a.table c = some .ready) (hv : Provides σ k.fat fails progs) :
    ∃ out k' a' sp', step L (.user k cpu) (.trap t) = some (leave (t.back cpu) out k') ∧
      Runs L k' a' sp' ∧ Tasks.Settled c a' out ∧
      MayTrap fails progs (k.os.save c cpu) c cpu t (k'.os, out) ∧ k'.fat = k.fat := by
  obtain ⟨h₁, hcpu⟩ := h.saveContext hc cpu
  have hfat := saveContext_fat k cpu
  obtain ⟨out, k', hrun, ⟨a', sp', ht⟩, hos, hfat'⟩ := (wp_and (wp_handler (t := t) h₁ hc hr hcpu)
    (wp_handler_os h₁ hc hr (hfat.symm ▸ hv))).total (bootArena_roomy L)
  refine ⟨out, k', a', sp', Option.map_eq_some_iff.mpr ⟨(out, k'), hrun, rfl⟩, ht.runs,
    ht.reacts.settled hc hr, ?_, hfat'.trans hfat⟩
  rwa [h.os_saveContext hc] at hos

/-- Every trap ends, as the trap of the abstract system does. -/
theorem exists_trap_os (t : Trap) (cpu : Context) (h : Runs L k a sp) (hc : a.current = some c)
    (hr : a.table c = some .ready) (hv : Provides σ k.fat False progs) :
    ∃ out k' a' sp', step L (.user k cpu) (.trap t) = some (leave (t.back cpu) out k') ∧
      Runs L k' a' sp' ∧ Tasks.Settled c a' out ∧
      (k'.os, out) = (k.os.save c cpu).trap progs c cpu t ∧ k'.fat = k.fat := by
  obtain ⟨out, k', a', sp', hs, hruns, hset, hmay, hfat⟩ := exists_trap_may t cpu h hc hr hv
  exact ⟨out, k', a', sp', hs, hruns, hset, hmay.resolve_right fun hbad => hbad.1, hfat⟩

omit [BlockDevice σ] in
theorem leave_fat (back : Int → Context) (out : Outcome) (k : Kernel σ) :
    (leave back out k).kernel.fat = k.fat := by
  cases out with
  | resume =>
      rw [leave, switchToContext]
      split <;> rfl
  | ret r => rfl
  | panic => rfl
  | halt => rfl

/-- **A step of the machine is one that the abstract system may make**, and it is possible when
that is. -/
theorem step_may (hv : Provides σ v fails progs) (h : Mounted L v m) (e : Event) :
    (∀ m', step L m e = some m' → Mounted L v m' ∧ (Os.step progs m.view e = some m'.view ∨
      fails ∧ Os.stepFailed m.view e = some m'.view)) ∧
    (step L m e = none → Os.step progs m.view e = none) := by
  rcases h with ⟨a, sp, hin, rfl⟩ | ⟨k, rfl⟩
  swap
  · exact ⟨nofun, fun _ => rfl⟩
  cases hin with
  | panicked hruns hstuck => exact ⟨nofun, fun _ => rfl⟩
  | @user k cpu c hruns hc hr =>
      have hcur : k.os.tasks.current = some c := hruns.current.trans hc
      cases e with
      | work cpu' =>
          refine ⟨fun m' hs => ?_, fun hs => ?_⟩
          · simp only [step, Option.ite_none_right_eq_some] at hs
            obtain ⟨hmode, ⟨⟩⟩ := hs
            exact ⟨.inl ⟨a, sp, .user c hruns hc hr, rfl⟩, .inl (if_pos hmode)⟩
          · simp only [step, ite_eq_right_iff] at hs
            exact if_neg fun hmode => by cases hs hmode
      | store virtual x =>
          have hstore := hruns.os_store hc hr virtual x
          refine ⟨fun m' hs => ?_, fun hs => ?_⟩
          · obtain ⟨addr, ha, rfl⟩ := Option.map_eq_some_iff.mp hs
            refine ⟨.inl ⟨a, sp, .user c (hruns.store hc hr ha x) hc hr, rfl⟩, .inl ?_⟩
            rw [ha] at hstore
            rw [Machine.view, Os.step, ← hstore]
            rfl
          · rw [step, Option.map_eq_none_iff] at hs
            rw [hs] at hstore
            rw [Machine.view, Os.step, ← hstore]
            rfl
      | trap t =>
          obtain ⟨out, k', a', sp', hs, hruns', hset, hmay, hfat⟩ :=
            exists_trap_may t cpu hruns hc hr hv
          refine ⟨fun m' hs' => ?_, fun hs' => by cases hs.symm.trans hs'⟩
          cases hs.symm.trans hs'
          refine ⟨.inl ⟨a', sp', hset.inTasks hruns' _, (leave_fat _ _ _).trans hfat⟩, ?_⟩
          rw [hset.view hruns', Machine.view]
          rcases hmay with hos | ⟨hfails, hos⟩
          · refine .inl ?_
            rw [hos, Os.step, hcur]
            rfl
          · refine .inr ⟨hfails, ?_⟩
            rw [Os.stepFailed, hcur, Option.bind_some, hos]
            rfl

/-- **A step of the machine is a step of the abstract system**: one is possible when the other
is, and they end in the same state. -/
theorem step_view (hv : Provides σ v False progs) (h : Mounted L v m) (e : Event) :
    (step L m e).map Machine.view = Os.step progs m.view e ∧
      ∀ m', step L m e = some m' → Mounted L v m' := by
  obtain ⟨hsome, hnone⟩ := step_may hv h e
  refine ⟨?_, fun m' hs => (hsome m' hs).1⟩
  cases hs : step L m e with
  | none => exact (hnone hs).symm
  | some m' => exact ((hsome m' hs).2.resolve_right fun hbad => hbad.1).symm

/-- **A run of the machine is a run of the abstract system.** -/
theorem run_view (hv : Provides σ v False progs) (h : Mounted L v m) (es : List Event) :
    (es.foldlM (step L) m).map Machine.view = es.foldlM (Os.step progs) m.view := by
  induction es generalizing m with
  | nil => rfl
  | cons e es ih =>
      obtain ⟨hview, hnext⟩ := step_view hv h e
      rw [List.foldlM_cons, List.foldlM_cons, ← hview]
      cases hs : step L m e with
      | none => rfl
      | some m' => exact ih (hnext m' hs)

/-! ### The start -/

/-- The disk becomes ready and mounts as the volume `v`, or it fails. -/
structure Boots (σ : Type) [BlockDevice σ] (v : Volume) (fails : Prop) : Prop where
  ready : ∀ d : σ, (blockInit d).1 = true ∨ fails
  mounts : ∀ d : σ, (∃ d', fatInit .zero d = (true, v, d')) ∨ fails ∧ (fatInit .zero d).1 = false

theorem wp_mountDisk_volume (hb : Boots σ v fails) (hfat : k.fat = .zero) :
    wp F mountDisk k fun ok k' =>
      (ok = false ∧ fails) ∨ (ok = true ∧ ∃ d, k' = { k with fat := v, dev := d }) := by
  refine wp_get_bind ?_
  rcases hd : blockInit k.dev with ⟨ready, d₁⟩
  refine wp_ite (fun hready => wp_set_bind (wp_pure (.inl ⟨rfl, ?_⟩))) fun _ => ?_
  · refine (hb.ready k.dev).resolve_left fun htrue => ?_
    rw [hd] at htrue
    rw [show ready = true from htrue] at hready
    cases hready
  · dsimp only
    rw [hfat]
    refine wp_set_bind (wp_pure ?_)
    rcases hb.mounts d₁ with ⟨d', hd'⟩ | ⟨hfails, hbad⟩
    · rw [hd']
      exact .inr ⟨rfl, d', rfl⟩
    · exact .inl ⟨hbad, hfails⟩

/-- What `c_entry` loads. -/
theorem wp_startShell_program (h : World L k fun _ => none)
    (hu : ∀ i, (k.processTable i).state = .UNUSED) (hv : Provides σ k.fat fails progs) :
    wp (0x81000000 ≤ L.kernelEnd) (startShell L) k fun ok k' => k'.fat = k.fat ∧
      ((ok = false ∧ (fails ∨ progs shellName = none)) ∨
        (ok = true ∧ ∃ prog, progs shellName = some prog ∧ userMemory k' 0 = prog.memory ∧
          (k'.processTable 0).context = startContext prog.entry)) := by
  refine wp_seq (wp_weaken (wp_procCreate h fun _ _ => rfl) (absurd · (bootArena_roomy L))) ?_
  rintro proc k₁ (⟨-, -, hfull⟩ | ⟨i, s, rfl, hcr⟩)
  · exact absurd (hu 0) (firstUnused_none hfull 0)
  obtain rfl : 0 = i := Option.some.inj ((firstUnused_zero (hu 0)).symm.trans hcr.unused)
  refine wp_seq (wp_weaken (wp_loadProgram _ hcr.world (hcr.unused_of fun _ _ => rfl)
    (Function.update_self _ _ _) (hcr.frame.fat ▸ hv)) (absurd · (bootArena_roomy L))) ?_
  rintro ok k₂ (⟨rfl, hno, -, hk⟩ | ⟨rfl, -, prog, t, hprog, hp, hmem, hctx⟩)
  · refine wp_pure ⟨hk.fat.trans hcr.frame.fat, .inl ⟨rfl, hno.imp_right fun hno => ?_⟩⟩
    refine hno.resolve_right fun hfull => ?_
    exact firstUnused_none hfull 1 ((hcr.frame.unused 1 (by decide) rfl).trans (hu 1))
  · refine wp_modify_bind (wp_pure ⟨hp.frame.fat.trans hcr.frame.fat, .inr ⟨rfl, prog, hprog, ?_⟩⟩)
    exact ⟨hmem, hctx⟩

/-- The shell as `c_entry` has loaded it. -/
structure ShellLoaded (L : Layout) (v : Volume) (prog : Program) (k : Kernel σ) (s : Space) :
    Prop where
  prepared : Prepared L k s
  fat : k.fat = v
  memory : userMemory k 0 = prog.memory
  context : (k.processTable 0).context = startContext prog.entry

theorem wp_prepare_program (ram : Bytes) (dev : σ) (hb : Boots σ v fails)
    (hv : Provides σ v fails progs) :
    wp (0x81000000 ≤ L.kernelEnd) (prepare L) (Kernel.initial ram dev) fun ok k' =>
      (ok = false ∧ (fails ∨ progs shellName = none)) ∨
      (ok = true ∧ ∃ prog s, progs shellName = some prog ∧ ShellLoaded L v prog k' s) := by
  refine wp_seq (wp_memoryInit ram dev) ?_
  rintro - k₁ ⟨h₁, hzero, hcur, httb, hfat, hdev⟩
  have hstate : ∀ i, (k₁.processTable i).state = .UNUSED := fun i => by rw [hzero i]; rfl
  refine wp_seq (wp_mountDisk_volume hb hfat) ?_
  rintro ok k₂ (⟨rfl, hfails⟩ | ⟨rfl, d, rfl⟩)
  · exact wp_ite (fun _ => wp_pure (.inl ⟨rfl, .inl hfails⟩)) fun hgood => absurd rfl hgood
  have h₂ : World L ({ k₁ with fat := v, dev := d } : Kernel σ) (fun _ => none) :=
    h₁.same rfl rfl rfl rfl
  refine wp_ite (fun hbad => absurd hbad (by decide)) fun _ => ?_
  refine wp_mono (wp_and (wp_startShell h₂ hstate hcur httb)
    (wp_startShell_program h₂ hstate hv)) ?_
  rintro ok k' ⟨⟨hout, -⟩, hfat', ⟨rfl, hno⟩ | ⟨rfl, prog, hprog, hmem, hctx⟩⟩
  · exact .inl ⟨rfl, hno⟩
  · rcases hout with ⟨h, -⟩ | ⟨-, s, hp⟩
    · cases h
    · exact .inr ⟨rfl, prog, s, hprog, hp, hfat', hmem, hctx⟩

/-- **`c_entry` starts the abstract system**, or the disk fails and it stops. -/
theorem wp_cEntry_may (ram : Bytes) (dev : σ) (hb : Boots σ v fails)
    (hv : Provides σ v fails progs) :
    wp (0x81000000 ≤ L.kernelEnd) (cEntry L) (Kernel.initial ram dev) fun out k' =>
      ((leave (fun _ _ => 0) out k').view = Os.boot progs ∨
        fails ∧ (leave (fun _ _ => 0) out k').view = .halted) ∧
        Mounted L v (leave (fun _ _ => 0) out k') := by
  refine wp_seq (wp_prepare_program ram dev hb hv) ?_
  rintro ok k₁ (⟨rfl, hno⟩ | ⟨rfl, prog, s, hprog, hp⟩)
  · refine wp_pure ⟨?_, .inr ⟨_, rfl⟩⟩
    rcases hno with hfails | hno
    · exact .inr ⟨hfails, rfl⟩
    · rw [Os.boot, hno]
      exact .inl rfl
  · refine wp_mono (wp_schedule hp.prepared.runs) ?_
    rintro out _ ⟨rfl, rfl⟩
    have hs := hp.prepared.runs.schedule
    rw [Tasks.unscheduled_schedule] at hs ⊢
    have hset : Tasks.Settled 0 Tasks.initial .resume := .resume 0 rfl rfl
    have hbody : (k₁.runAs Tasks.initial).os.body 0 = some prog.start := by
      rw [hs.body, Function.update_self, Option.map_some]
      exact congrArg some (Body.mk.injEq _ _ _ _ |>.mpr
        ⟨((hp.prepared.runs.world.userMemory (Function.update_self _ _ _)).symm.trans hp.memory),
          hp.context⟩)
    have hos : (k₁.runAs Tasks.initial).os =
        ⟨.initial, Function.update (fun _ => none) 0 (some prog.start)⟩ := by
      refine Os.ext hs.tasks (funext fun j => ?_)
      by_cases hj : j = 0
      · rw [hj, hbody]
        simp
      · rw [hs.body]
        simp [Function.update_of_ne hj]
    refine ⟨.inl ?_, .inl ⟨_, _, hset.inTasks hs _, ?_⟩⟩
    · rw [hset.view hs, hos, Os.boot, hprog]
      rfl
    · exact hp.fat

/-- **`c_entry` starts the abstract system**, on a disk that becomes ready and mounts. -/
theorem wp_cEntry_os (ram : Bytes) (dev : σ) (hready : ∀ d : σ, (blockInit d).1 = true)
    (hmount : ∀ d : σ, ∃ d', fatInit .zero d = (true, v, d')) (hv : Provides σ v False progs) :
    wp (0x81000000 ≤ L.kernelEnd) (cEntry L) (Kernel.initial ram dev) fun out k' =>
      (leave (fun _ _ => 0) out k').view = Os.boot progs ∧
        Mounted L v (leave (fun _ _ => 0) out k') := by
  have hb : Boots σ v False := ⟨fun d => .inl (hready d), fun d => .inl (hmount d)⟩
  refine wp_mono (wp_cEntry_may ram dev hb hv) fun out k' hboot => ?_
  exact ⟨hboot.1.resolve_right fun hbad => hbad.1, hboot.2⟩

/-! ### The whole system -/

/-- **The kernel implements the abstract system.**  On a disk that becomes ready, serves its
contents and mounts, with a kernel image below 16 MiB, from any memory at power-on and any state of
the driver: `c_entry` ends, and from there any sequence of events is possible for the machine if and
only if it is for the abstract system that starts with the programs on the disk; and then the tasks,
the memory and the registers of every process are the same. -/
theorem arunos_refines_os {img : Nat → Bytes} {n : Nat} (hd : Serves σ img n)
    (hready : ∀ d : σ, (blockInit d).1 = true) {d₀ d₁ : σ}
    (hm : fatInit .zero d₀ = (true, v, d₁)) (hL : L.kernelEnd < 0x81000000) (ram : Bytes)
    (dev : σ) :
    ∃ out k, (cEntry L).run (.initial ram dev) = some (out, k) ∧ ∀ es : List Event,
      (es.foldlM (step L) (leave (fun _ _ => 0) out k)).map Machine.view =
        es.foldlM (Os.step (programNamed img v)) (Os.boot (programNamed img v)) := by
  have hv := hd.provides hm
  obtain ⟨out, k, hrun, hboot, hmounted⟩ :=
    (wp_cEntry_os ram dev hready (fatInit_serves hd hm) hv).total (not_le.mpr hL)
  exact ⟨out, k, hrun, fun es => by rw [run_view hv hmounted, hboot]⟩

/-- The machine with `shellDisk` is the abstract system with the shell. -/
theorem arunos_refines_os_shell : ∃ (out : Outcome) (k : Kernel shellDisk.Reader),
    (cEntry smallLayout).run (.initial (fun _ => 0) ⟨⟩) = some (out, k) ∧ ∀ es : List Event,
      (es.foldlM (step smallLayout) (leave (fun _ _ => 0) out k)).map Machine.view =
        es.foldlM (Os.step (programNamed shellDisk.bytes shellVolume))
          (Os.boot (programNamed shellDisk.bytes shellVolume)) :=
  arunos_refines_os shellDisk.serves (fun _ => rfl) fatInit_shellDisk (by decide) _ _

end Device

end Arunos
