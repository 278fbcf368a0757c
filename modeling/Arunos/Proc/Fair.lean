import Arunos.Proc.Lifecycle
import Arunos.Support.RoundRobin

/-!
# Proc — Fair — the turns of the scheduler

`scheduleSearch` is `schedule` up to the call of `proc_start` (`schedule_eq`): it moves
`round_robin_index` to the first ready slot.  Between two calls the rest of the kernel changes in
any way (`beforeCall`); the index is the scheduler's own.
-/

namespace Arunos

open RoundRobin

variable {σ : Type}

/-- The loop of `schedule`, up to the call of `proc_start`: the slot found, with `n` left to try. -/
def scheduleSearch : Nat → KM σ (Option (Fin 10))
  | 0 => return none
  | n + 1 => do
      modify fun k => { k with
        roundRobinIndex := if k.roundRobinIndex + 1 = 10 then 0 else k.roundRobinIndex + 1 }
      let k ← get
      let proc ← deref (if h : k.roundRobinIndex < 10 then some ⟨k.roundRobinIndex, h⟩ else none)
      if (k.processTable proc).state = .READY then
        modify fun k => { k with currentProcess := some proc }
        return some proc
      else scheduleSearch n

/-- What `schedule` does with the slot. -/
def scheduleFound : Option (Fin 10) → KM σ Outcome
  | some proc => do
      procStart proc
      return .resume
  | none => return .panic

theorem scheduleLoop_eq (n : Nat) :
    (scheduleLoop n : KM σ Outcome) = scheduleSearch n >>= scheduleFound := by
  induction n with
  | zero => rfl
  | succ n ih =>
      simp only [scheduleLoop, scheduleSearch, bind_assoc]
      refine bind_congr fun _ => bind_congr fun k => bind_congr fun proc => ?_
      split
      · simp only [bind_assoc, pure_bind, scheduleFound]
      · exact ih

theorem schedule_eq : (schedule : KM σ Outcome) = scheduleSearch 10 >>= scheduleFound :=
  scheduleLoop_eq 10

/-- A slot is ready. -/
def Kernel.ready (k : Kernel σ) (x : Nat) : Prop :=
  ∃ h : x < 10, (k.processTable ⟨x, h⟩).state = .READY

/-- The index `n` slots further on. -/
def Kernel.turn (k : Kernel σ) (n : Nat) : Kernel σ :=
  { k with roundRobinIndex := (k.roundRobinIndex + n) % 10 }

/-- The kernel that has chosen a slot. -/
def Kernel.choose (k : Kernel σ) (proc : Fin 10) : Kernel σ :=
  { k with roundRobinIndex := proc.val, currentProcess := some proc }

/-- The next slot is the only one with no slot on the way. -/
theorem gap_next {r x : Nat} (hr : r < 10) (hx : x < 10)
    (hne : x ≠ if r + 1 = 10 then 0 else r + 1) :
    gap 10 r x = gap 10 (if r + 1 = 10 then 0 else r + 1) x + 1 := by
  unfold gap
  split_ifs at hne ⊢ <;> omega

theorem gap_next_self (r : Nat) :
    gap 10 r (if r + 1 = 10 then 0 else r + 1) = 0 := by
  unfold gap
  split_ifs <;> omega

/-- What `n` rounds of the search do. -/
theorem wp_scheduleSearch {F : Prop} (n : Nat) (k : Kernel σ) (hk : k.roundRobinIndex < 10) :
    wp F (scheduleSearch n) k fun found k' =>
      match found with
      | some proc => k' = k.choose proc ∧ k.ready proc ∧
          ∀ x, k.ready x → gap 10 k.roundRobinIndex proc ≤ gap 10 k.roundRobinIndex x
      | none => k' = k.turn n ∧ ∀ x, k.ready x → n ≤ gap 10 k.roundRobinIndex x := by
  induction n generalizing k with
  | zero =>
      refine wp_pure ⟨?_, fun x _ => Nat.zero_le _⟩
      rw [Kernel.turn, Nat.add_zero, Nat.mod_eq_of_lt hk]
  | succ n ih =>
      let r := if k.roundRobinIndex + 1 = 10 then 0 else k.roundRobinIndex + 1
      have hr : r < 10 := by
        simp only [r]
        split <;> omega
      refine wp_modify_bind (wp_get_bind (wp_bind (wp_deref (a := ⟨r, hr⟩) (dif_pos hr) ?_)))
      refine wp_ite (fun hready => ?_) fun hready => ?_
      · refine wp_modify_bind (wp_pure ⟨rfl, ⟨hr, hready⟩, ?_⟩)
        intro x _
        have hzero : gap 10 k.roundRobinIndex r = 0 := gap_next_self _
        exact hzero ▸ Nat.zero_le _
      · -- the slot is not ready, so the others are one step closer from there
        have hcloser : ∀ x, k.ready x → gap 10 k.roundRobinIndex x = gap 10 r x + 1 := by
          rintro x ⟨hx, hxr⟩
          refine gap_next hk hx ?_
          rintro rfl
          exact hready hxr
        refine wp_mono (ih { k with roundRobinIndex := r } hr) ?_
        intro found k' h
        cases found with
        | some proc =>
            obtain ⟨rfl, hproc, hfirst⟩ := h
            refine ⟨rfl, hproc, fun x hx => ?_⟩
            rw [hcloser proc hproc, hcloser x hx]
            exact Nat.succ_le_succ (hfirst x hx)
        | none =>
            obtain ⟨rfl, hfar⟩ := h
            refine ⟨?_, fun x hx => ?_⟩
            · have hturn : (r + n) % 10 = (k.roundRobinIndex + (n + 1)) % 10 := by
                simp only [r]
                split <;> omega
              simp only [Kernel.turn, hturn]
            · rw [hcloser x hx]
              exact Nat.succ_le_succ (hfar x hx)

/-- The slot that a call of `schedule` hands to `proc_start`. -/
theorem schedule_search (k : Kernel σ) (hk : k.roundRobinIndex < 10) :
    (∃ proc, (scheduleSearch 10).run k = some (some proc, k.choose proc) ∧
      First 10 k.ready k.roundRobinIndex proc) ∨
    ((scheduleSearch 10).run k = some (none, k) ∧ ∀ x, ¬ k.ready x) := by
  obtain ⟨found, k', hrun, h⟩ := (wp_scheduleSearch (F := False) 10 k hk).total id
  cases found with
  | some proc =>
      obtain ⟨rfl, hready, hfirst⟩ := h
      exact .inl ⟨proc, hrun, proc.isLt, hready, fun x _ => hfirst x⟩
  | none =>
      obtain ⟨rfl, hfar⟩ := h
      refine .inr ⟨?_, fun x hx => ?_⟩
      · rw [hrun, Kernel.turn, Nat.add_mod_right, Nat.mod_eq_of_lt hk]
      · have := gap_lt hk hx.choose
        have := hfar x hx
        omega

/-! ### Calls one after the other -/

/-- The kernel before the `i`-th call of `schedule` after `scheduler_init`.  `env i` is what the
kernel has become by then; `round_robin_index` is where the call before it left it. -/
def beforeCall (env : Nat → Kernel σ) : Nat → Option (Kernel σ)
  | 0 => some { env 0 with roundRobinIndex := 0 }
  | i + 1 => do
      let k ← beforeCall env i
      let (_, k') ← (scheduleSearch 10).run k
      return { env (i + 1) with roundRobinIndex := k'.roundRobinIndex }

/-- The slot that the `i`-th call selects. -/
def selectedAt (env : Nat → Kernel σ) (i : Nat) : Option (Fin 10) := do
  let k ← beforeCall env i
  let (found, _) ← (scheduleSearch 10).run k
  found

variable (env : Nat → Kernel σ) (i : Nat)

theorem exists_beforeCall :
    ∃ r < 10, beforeCall env i = some { env i with roundRobinIndex := r } := by
  induction i with
  | zero => exact ⟨0, by decide, rfl⟩
  | succ i ih =>
      obtain ⟨r, hr, hk⟩ := ih
      rcases schedule_search { env i with roundRobinIndex := r } hr with
        ⟨proc, hrun, -⟩ | ⟨hrun, -⟩
      · exact ⟨proc, proc.isLt, by simp [beforeCall, hk, hrun, Kernel.choose]⟩
      · exact ⟨r, hr, by simp [beforeCall, hk, hrun]⟩

/-- The index before a call. -/
def indexAt : Nat := ((beforeCall env i).map Kernel.roundRobinIndex).getD 0

theorem beforeCall_eq :
    beforeCall env i = some { env i with roundRobinIndex := indexAt env i } := by
  obtain ⟨r, -, hk⟩ := exists_beforeCall env i
  simp [indexAt, hk]

theorem indexAt_lt : indexAt env i < 10 := by
  obtain ⟨r, hr, hk⟩ := exists_beforeCall env i
  simpa [indexAt, hk] using hr

/-- A call selects the first ready slot, or finds none. -/
theorem selectedAt_cases :
    (∃ proc, selectedAt env i = some proc ∧
      (scheduleSearch 10).run { env i with roundRobinIndex := indexAt env i } =
        some (some proc, (env i).choose proc) ∧
      First 10 (env i).ready (indexAt env i) proc ∧ indexAt env (i + 1) = proc) ∨
    (selectedAt env i = none ∧
      (scheduleSearch 10).run { env i with roundRobinIndex := indexAt env i } =
        some (none, { env i with roundRobinIndex := indexAt env i }) ∧ ∀ x, ¬ (env i).ready x) := by
  have hk := beforeCall_eq env i
  rcases schedule_search { env i with roundRobinIndex := indexAt env i } (indexAt_lt env i) with
    ⟨proc, hrun, hfirst⟩ | ⟨hrun, hnone⟩
  · refine .inl ⟨proc, ?_, hrun, hfirst, ?_⟩
    · simp [selectedAt, hk, hrun]
    · have hnext : beforeCall env (i + 1) =
          some { env (i + 1) with roundRobinIndex := proc.val } := by
        simp [beforeCall, hk, hrun, Kernel.choose]
      rw [indexAt, hnext]
      rfl
  · exact .inr ⟨by simp [selectedAt, hk, hrun], hrun, hnone⟩

theorem Kernel.ready_val (k : Kernel σ) (d : Fin 10) :
    k.ready d ↔ (k.processTable d).state = .READY :=
  ⟨fun ⟨_, h⟩ => h, fun h => ⟨d.isLt, h⟩⟩

theorem selectedAt_none_iff :
    selectedAt env i = none ↔ ∀ d, ((env i).processTable d).state ≠ .READY := by
  rcases selectedAt_cases env i with ⟨proc, hsel, -, hfirst, -⟩ | ⟨hsel, -, hnone⟩
  · simp only [hsel, reduceCtorEq, false_iff, not_forall, not_not]
    exact ⟨proc, ((env i).ready_val proc).mp hfirst.isReady⟩
  · exact ⟨fun _ d hd => hnone d (((env i).ready_val d).mpr hd), fun _ => hsel⟩

/-- **The scheduler is fair.**  Whatever happens to the processes between its calls, the index stays
inside the table, a call starts a ready process if there is one and panics exactly if there is none;
and when a slot is selected twice, every other slot that was ready at all the calls since the first
time has been selected in between. -/
theorem round_robin_fair :
    (∀ i, ∃ k, beforeCall env i = some k ∧ k.roundRobinIndex < 10 ∧
      k.processTable = (env i).processTable ∧
      schedule.run k = (match selectedAt env i with
        | some d => (scheduleFound (some d)).run (k.choose d)
        | none => some (.panic, k)) ∧
      (∀ d, selectedAt env i = some d → ((env i).processTable d).state = .READY) ∧
      (selectedAt env i = none ↔ ∀ d, ((env i).processTable d).state ≠ .READY)) ∧
    ∀ a b j d, a < b → selectedAt env a = some j → selectedAt env b = some j → d ≠ j →
      (∀ c, a < c → c ≤ b → ((env c).processTable d).state = .READY) →
      ∃ c, a < c ∧ c < b ∧ selectedAt env c = some d := by
  constructor
  · intro i
    refine ⟨_, beforeCall_eq env i, indexAt_lt env i, rfl, ?_, ?_, selectedAt_none_iff env i⟩
    · rw [schedule_eq, StateT.run_bind]
      rcases selectedAt_cases env i with ⟨proc, hsel, hrun, -⟩ | ⟨hsel, hrun, -⟩
      · rw [hsel, hrun]
        rfl
      · rw [hsel, hrun]
        rfl
    · intro d hd
      rcases selectedAt_cases env i with ⟨proc, hsel, -, hfirst, -⟩ | ⟨hsel, -⟩
      · obtain rfl : proc = d := Option.some.inj (hsel.symm.trans hd)
        exact ((env i).ready_val proc).mp hfirst.isReady
      · cases hsel.symm.trans hd
  · intro a b j d hab ha hb hne hready
    have hsome : ∀ i s, (selectedAt env i).map Fin.val = some s →
        indexAt env (i + 1) = s ∧ First 10 (env i).ready (indexAt env i) s := by
      intro i s hs
      rcases selectedAt_cases env i with ⟨proc, hsel, -, hfirst, hnext⟩ | ⟨hsel, -⟩
      · obtain rfl : proc.val = s := by simpa [hsel] using hs
        exact ⟨hnext, hfirst⟩
      · simp [hsel] at hs
    have hnone : ∀ i, (selectedAt env i).map Fin.val = none → ∀ x, x < 10 → ¬ (env i).ready x := by
      intro i hs x _
      rcases selectedAt_cases env i with ⟨proc, hsel, -⟩ | ⟨-, -, hnone⟩
      · simp [hsel] at hs
      · exact hnone x
    obtain ⟨c, hac, hcb, hc⟩ := chosen_between (fun i => (env i).ready) (indexAt env)
      (fun i => (selectedAt env i).map Fin.val) (indexAt_lt env) hsome hnone hab (j := j.val)
      (by simp [ha]) (by simp [hb]) d.isLt (fun h => hne (Fin.ext h))
      fun c hac hcb => ((env c).ready_val d).mpr (hready c hac hcb)
    refine ⟨c, hac, hcb, ?_⟩
    obtain ⟨d', hd', he⟩ := Option.map_eq_some_iff.mp hc
    rwa [← Fin.ext he]

end Arunos
