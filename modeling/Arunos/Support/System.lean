import Mathlib.Tactic.Common

/-!
# Support — System — runs of a transition system

A `System S E` has initial states and steps labelled by events.  A property that holds initially
and is kept by every step holds in every reachable state (`Reachable.invariant`).

Three systems come from a system `A`.  `A.start s` has the runs from `s`.  `A.restrict G` takes only
the steps with `G`: its reachable states are those of the runs of `A` whose steps all meet the
condition `G`.  `A.observe h₀ f` runs beside `A` an observer that sees every step and changes
nothing: it has the runs of `A` (`Reachable.observe`), with a record of the past in each state.
What a step keeps of both is kept by every run (`Reachable.observed_invariant`).
-/

namespace Arunos

/-- Initial states and labelled steps. -/
structure System (S E : Type*) where
  init : S → Prop
  step : S → E → S → Prop

namespace System

variable {S E H : Type*} (A : System S E)

/-- The states that runs reach. -/
inductive Reachable : S → Prop where
  | init {s : S} (h : A.init s) : Reachable s
  | step {s s' : S} {e : E} (h : Reachable s) (hs : A.step s e s') : Reachable s'

/-- The runs with their events. -/
inductive Path : S → List E → S → Prop where
  | nil (s : S) : Path s [] s
  | cons {s t u : S} {e : E} {es : List E} (hs : A.step s e t) (h : Path t es u) :
      Path s (e :: es) u

/-- The runs from `s₀`. -/
def start (s₀ : S) : System S E where
  init s := s = s₀
  step := A.step

/-- The runs whose steps all satisfy `G`. -/
def restrict (G : S → E → S → Prop) : System S E where
  init := A.init
  step s e s' := A.step s e s' ∧ G s e s'

/-- The runs with an observer, which starts with `h₀` and records a step by `f`. -/
def observe (h₀ : S → H) (f : H → S → E → S → H) : System (S × H) E where
  init x := A.init x.1 ∧ x.2 = h₀ x.1
  step x e y := A.step x.1 e y.1 ∧ y.2 = f x.2 x.1 e y.1

variable {A}

/-- What holds initially and is kept by every step holds in every reachable state. -/
theorem Reachable.invariant {I : S → Prop} {s : S} (h : A.Reachable s)
    (h₀ : ∀ s, A.init s → I s) (hstep : ∀ s e s', I s → A.step s e s' → I s') : I s := by
  induction h with
  | init hi => exact h₀ _ hi
  | step _ hs ih => exact hstep _ _ _ ih hs

/-- A run from a reachable state ends in one. -/
theorem Reachable.path {s t : S} {es : List E} (h : A.Reachable s) (hp : A.Path s es t) :
    A.Reachable t := by
  induction hp with
  | nil => exact h
  | cons hs _ ih => exact ih (h.step hs)

/-- A run whose events all satisfy `G`, whatever the states, is one of the restricted system. -/
theorem Path.restrict {G : S → E → S → Prop} {s t : S} {es : List E} (h : A.Path s es t)
    (hG : ∀ s s', ∀ e ∈ es, G s e s') : (A.restrict G).Path s es t := by
  induction h with
  | nil => exact .nil _
  | cons hs _ ih =>
      exact .cons ⟨hs, hG _ _ _ (by simp)⟩ (ih fun s s' e he => hG s s' e (by simp [he]))

/-- A run whose steps all satisfy `G` is one of the restricted system. -/
theorem Reachable.restrict {G : S → E → S → Prop} {s : S} (h : A.Reachable s)
    (hG : ∀ s e s', A.step s e s' → G s e s') : (A.restrict G).Reachable s := by
  induction h with
  | init hi => exact .init hi
  | step _ hs ih => exact ih.step ⟨hs, hG _ _ _ hs⟩

/-- A run of the restricted system is a run of the system. -/
theorem Reachable.of_restrict {G : S → E → S → Prop} {s : S} (h : (A.restrict G).Reachable s) :
    A.Reachable s := by
  induction h with
  | init hi => exact .init hi
  | step _ hs ih => exact ih.step hs.1

/-- A condition that every step of the runs with `G` meets may take its place. -/
theorem Reachable.weaken {G G' : S → E → S → Prop} {s : S} (h : (A.restrict G).Reachable s)
    (hG : ∀ s e s', (A.restrict G).Reachable s → (A.restrict G).step s e s' → G' s e s') :
    (A.restrict G').Reachable s := by
  induction h with
  | init hi => exact .init hi
  | step h hs ih => exact ih.step ⟨hs.1, hG _ _ _ h hs⟩

/-- Without its observer a run is a run of the system. -/
theorem Reachable.of_observe {h₀ : S → H} {f : H → S → E → S → H} {x : S × H}
    (h : (A.observe h₀ f).Reachable x) : A.Reachable x.1 := by
  induction h with
  | init hi => exact .init hi.1
  | step _ hs ih => exact ih.step hs.1

/-- The observer does not restrict the runs. -/
theorem Reachable.observe {G : S → E → S → Prop} {s : S} (h : (A.restrict G).Reachable s)
    (h₀ : S → H) (f : H → S → E → S → H) :
    ∃ r, ((A.observe h₀ f).restrict fun x e y => G x.1 e y.1).Reachable (s, r) := by
  induction h with
  | @init s hi => exact ⟨h₀ s, .init ⟨hi, rfl⟩⟩
  | @step s s' e _ hs ih =>
      obtain ⟨r, hr⟩ := ih
      exact ⟨f r s e s', hr.step (e := e) ⟨⟨hs.1, rfl⟩, hs.2⟩⟩

/-- `Reachable.invariant` for the runs with an observer. -/
theorem Reachable.observer_invariant {h₀ : S → H} {f : H → S → E → S → H} {I : S → H → Prop}
    {s : S} {r : H} (h : (A.observe h₀ f).Reachable (s, r)) (hinit : ∀ s, A.init s → I s (h₀ s))
    (hstep : ∀ s r e s', I s r → A.step s e s' → I s' (f r s e s')) : I s r := by
  refine h.invariant (I := fun x => I x.1 x.2) (fun x hx => hx.2 ▸ hinit x.1 hx.1) ?_
  rintro ⟨s, r⟩ e ⟨s', r'⟩ hi ⟨hs, hr⟩
  obtain rfl : r' = f r s e s' := hr
  exact hstep s r e s' hi hs

/-- `Reachable.invariant` for the runs with an observer whose steps all satisfy `G`. -/
theorem Reachable.observed_invariant {h₀ : S → H} {f : H → S → E → S → H}
    {G : S × H → E → S × H → Prop} {I : S → H → Prop} {s : S} {r : H}
    (h : ((A.observe h₀ f).restrict G).Reachable (s, r)) (hinit : ∀ s, A.init s → I s (h₀ s))
    (hstep : ∀ s r e s', I s r → A.step s e s' → G (s, r) e (s', f r s e s') →
      I s' (f r s e s')) : I s r := by
  refine h.invariant (I := fun x => I x.1 x.2) (fun x hx => hx.2 ▸ hinit x.1 hx.1) ?_
  rintro ⟨s, r⟩ e ⟨s', r'⟩ hi ⟨⟨hs, hr⟩, hG⟩
  obtain rfl : r' = f r s e s' := hr
  exact hstep s r e s' hi hs hG

end System

end Arunos
