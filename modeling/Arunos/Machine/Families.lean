import Arunos.Machine.Waiting

/-!
# Machine — Families — processes that wait for their children

The programs of `user/` follow one rule when they wait: a process calls `wait` only with a number
that an earlier `fork` of its own has returned.  A program can keep to it without knowing anything
of the others, and the kernel does not enforce it.

The number may be a stranger's by the time of the call, because slots are used again.  The rule is
enough all the same: a process that is in such a slot is younger than the caller, whoever has
created it.  So nobody waits, directly or through others, for itself, and `schedule` finds a ready
process as long as any is alive (`ready_among_families`).
-/

namespace Arunos

variable {σ : Type} {L : Layout} {a : Tasks} {i : Fin 10} {sp : Fin 10 → Option Space}
  {m m' : Machine σ} {e : Event} {l : Seniority (Fin 10)}

/-- The observer's record after a step. -/
def chronicle (l : Seniority (Fin 10)) (m : Machine σ) (e : Event) (m' : Machine σ) :
    Seniority (Fin 10) :=
  l.record (statusTable m.kernel) (statusTable m'.kernel) (forkOf m e m')

/-- The system with an observer of births. -/
def chronicled (σ : Type) [BlockDevice σ] (L : Layout) :
    System (Machine σ × Seniority (Fin 10)) Event :=
  (arunos σ L).observe (fun _ => .start) chronicle

/-- A process waits only for a number that a `fork` of its own has returned. -/
def WaitsForOwn (x : Machine σ × Seniority (Fin 10)) (e : Event)
    (_ : Machine σ × Seniority (Fin 10)) : Prop :=
  ∀ c d, Waits x.1 e c d → d ∈ x.2.offspring c

variable [BlockDevice σ]

/-- The slot that a `fork` has filled was empty. -/
theorem forkOf_empty {p c : Fin 10} (hin : InTasks L a sp m) (hs : step L m e = some m')
    (hf : forkOf m e m' = some (p, c)) : a.table c = none := by
  obtain ⟨k, cpu, rfl, ⟨cpu', rfl, -, rfl⟩ | ⟨virtual, b, addr, rfl, -, rfl⟩ | ⟨t, rfl, ht⟩⟩ :=
    step_cases hs
  · cases hf
  · cases hf
  cases hin with
  | user d hruns hd hr =>
      obtain ⟨a', sp', out, k', htrap, rfl, -⟩ := step_trap hruns hd hr ht
      cases t with
      | timer => cases hf
      | uart => cases hf
      | execute name => cases hf
      | swi key =>
          by_cases h4 : cpu .R0 = 4
          swap
          · cases hm : leave (Trap.back cpu (.swi key)) out k' with
            | user k₁ cpu₁ => simp [hm, forkOf, h4] at hf
            | panicked k₁ => rw [hm] at hf; cases hf
            | halted k₁ => rw [hm] at hf; cases hf
          have hans : (a', out) = a.fork := by
            have := htrap.reacts
            rw [Tasks.Reacts, h4] at this
            exact this
          rw [Tasks.fork] at hans
          cases hfree : a.firstFree with
          | none =>
              rw [hfree] at hans
              obtain ⟨-, rfl⟩ := Prod.mk.inj hans
              simp only [leave, Trap.back, forkOf, h4, if_true, hruns.current, hd,
                Function.update_self, procGet_failed, reduceCtorEq] at hf
          | some i =>
              rw [hfree] at hans
              obtain ⟨-, rfl⟩ := Prod.mk.inj hans
              simp only [leave, Trap.back, forkOf, h4, if_true, hruns.current, hd,
                Function.update_self, signed_word, procGet_pid, Option.some.injEq,
                Prod.mk.injEq] at hf
              rw [← hf.2]
              exact Tasks.firstFree_some hfree

/-- In every run that keeps to the rule, whoever is waited for is younger. -/
theorem chronicled_ok (h : ((chronicled σ L).restrict WaitsForOwn).Reachable (m, l)) :
    (∃ a sp, InTasks L a sp m ∧ Sound a.table ∧ l.Ok a.table) ∨ Unbooted L m := by
  refine System.Reachable.observed_invariant
    (I := fun m l => (∃ a sp, InTasks L a sp m ∧ Sound a.table ∧ l.Ok a.table) ∨ Unbooted L m) h
    ?_ ?_
  · intro m hi
    rcases init_cases hi with ⟨sp, hin⟩ | hk
    · refine .inl ⟨_, sp, hin, sound_initial, fun i => le_rfl, fun p c _ hc => ?_, fun i d hw => ?_⟩
      · cases hc
      · by_cases hi : i = 0 <;> simp [Tasks.initial, hi] at hw
    · exact .inr hk
  · rintro m l e m' (⟨a, sp, hin, hs, hl⟩ | ⟨k, rfl, -⟩) hstep hG
    · obtain ⟨a', sp', mv, hm, hin', ht⟩ := step_makes hin hstep
      refine .inl ⟨a', sp', hin', ht ▸ hs.move hm.legal, ?_⟩
      rw [chronicle, hin.runs.statusTable, hin'.runs.statusTable, ht]
      refine hl.move hs hm.legal (fun p c hf => forkOf_empty hin hstep hf) fun i d hmv => ?_
      exact hG i d (hm.wait i d hmv)
    · cases hstep

/-- **Among processes that wait only for numbers their own forks have returned, one is always
ready**, as long as any is alive, so `schedule` does not panic — even where a slot has been used
again and a process waits for a stranger. -/
theorem ready_among_families (h : ((chronicled σ L).restrict WaitsForOwn).Reachable (m, l))
    (hm : ∀ k, m ≠ .halted k) (hi : (m.kernel.processTable i).state ≠ .UNUSED) :
    (∃ j, (m.kernel.processTable j).state = .READY) ∧ ∀ k, m ≠ .panicked k := by
  rcases chronicled_ok h with ⟨a, sp, hin, hs, hl⟩ | ⟨k, rfl, -⟩
  · obtain ⟨j, hj⟩ := hl.acyclic.exists_ready hs fun hnone =>
      hi ((hin.runs.view i).unused_iff.mpr hnone)
    refine ⟨⟨j, (hin.runs.view j).ready_iff.mpr hj⟩, ?_⟩
    rintro k rfl
    cases hin with
    | panicked hruns hstuck => exact hstuck j hj
  · exact absurd rfl (hm k)

theorem chronicled_step (h : ((chronicled σ L).restrict WaitsForOwn).Reachable (m, l))
    (hs : step L m e = some m') (hw : WaitsForOwn (m, l) e (m', chronicle l m e m')) :
    ((chronicled σ L).restrict WaitsForOwn).Reachable (m', chronicle l m e m') :=
  h.step ⟨⟨hs, rfl⟩, hw⟩

omit [BlockDevice σ] in
/-- What is not a call of `wait` is within the rule. -/
theorem WaitsForOwn.of_call {k : Kernel σ} {cpu : Context} {y : Machine σ × Seniority (Fin 10)}
    (h : (∀ key, e ≠ .trap (.swi key)) ∨ cpu .R0 ≠ 7) : WaitsForOwn (.user k cpu, l) e y := by
  rintro c d ⟨k', cpu', key, hk, he, h7, -⟩
  cases hk
  rcases h with h | h
  · exact absurd he (h key)
  · exact absurd h7 h

omit [BlockDevice σ] in
theorem chronicle_fork {c d : Fin 10} (hlive : statusTable m.kernel c ≠ none)
    (hf : forkOf m e m' = some (c, d)) : d ∈ (chronicle l m e m').offspring c := by
  rw [chronicle, hf]
  exact Seniority.record_fork hlive

omit [BlockDevice σ] in
theorem chronicle_offspring {c d : Fin 10} (hlive : statusTable m.kernel c ≠ none)
    (hd : d ∈ l.offspring c) : d ∈ (chronicle l m e m').offspring c :=
  Seniority.mem_record hlive hd

/-- The shell forks and waits for its child, which is ready. -/
theorem ready_among_families_shell : ∃ (m : Machine shellDisk.Reader) (l : Seniority (Fin 10)),
    ((chronicled shellDisk.Reader smallLayout).restrict WaitsForOwn).Reachable (m, l) ∧
      (m.kernel.processTable 0).state = .SLEEPING ∧
      ∃ j, (m.kernel.processTable j).state = .READY := by
  obtain ⟨k, cpu, sp, hi, hin⟩ := exists_inTasks
  obtain ⟨m₁, sp₁, hp⟩ := exists_performs cpu hin rfl rfl .start .fork
  have hr₀ : ((chronicled shellDisk.Reader smallLayout).restrict WaitsForOwn).Reachable
      (.user k cpu, .start) := .init ⟨hi, rfl⟩
  have hr₁ := chronicled_step hr₀ hp.work.1 (.of_call (.inl fun _ h => by cases h))
  have hr₂ := chronicled_step hr₁ hp.trap.1 (.of_call (.inr (by simp [Call.registers])))
  -- the shell now has the number of its child
  have h0 : (Tasks.initial.answer 0 .fork).1.table 0 = some .ready := by decide +kernel
  have hc : (Tasks.initial.answer 0 .fork).1.current = some 0 := by decide +kernel
  obtain ⟨k₁', hm₁⟩ := hp.leaves
  have hfork : forkOf (.user k (Call.fork.registers cpu)) (.trap Call.fork.trap) m₁ =
      some (0, 1) := by
    rw [hm₁, forkOf_call hp.current]
    decide +kernel
  have hin₁ := hp.inTasks
  cases hin₁ with
  | panicked hruns hstuck => exact absurd h0 (hstuck 0)
  | @user k₁ cpu₁ c hruns hc' hr =>
      obtain ⟨m₂, sp₂, hq⟩ := exists_performs cpu₁ (.user c hruns hc' hr) hc h0 .start (.wait 2)
      have hr₃ := chronicled_step hr₂ hq.work.1 (.of_call (.inl fun _ h => by cases h))
      have hr₄ := chronicled_step hr₃ hq.trap.1 (by
        rintro c d ⟨k', cpu', key, h, -, -, hcur, hd⟩
        cases h
        obtain rfl : 0 = c := Option.some.inj (hq.current.symm.trans hcur)
        obtain rfl : 1 = d := Option.some.inj hd
        dsimp only
        refine chronicle_offspring ?_ (chronicle_fork ?_ hfork)
        · rw [show statusTable (Machine.user k₁ cpu₁).kernel = _ from hruns.statusTable, h0]
          simp
        · rw [show statusTable (Machine.user k (Call.fork.registers cpu)).kernel = _ from
            hin.runs.statusTable]
          decide)
      have ht : ((Tasks.initial.answer 0 .fork).1.answer 0 (.wait 2)).1.table 0 =
          some (.waiting 1) := by decide +kernel
      obtain ⟨h₁, -⟩ := (hq.inTasks.runs.view 0).sleeping_iff.mpr ht
      refine ⟨m₂, _, hr₄, h₁, (ready_among_families (i := 0) hr₄ ?_ (by rw [h₁]; decide)).1⟩
      rintro k rfl
      cases hq.inTasks

end Arunos
