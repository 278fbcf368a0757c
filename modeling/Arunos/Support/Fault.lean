import Mathlib.Tactic.Common

/-!
# Support — Fault — programs with a state and a fault

A program over a state `σ` either returns a value and a state or faults: it is a
`StateT σ Option α`.  `wp F x s Q` says that from `s` the program `x` returns a value and a state
that satisfy `Q`, or faults and `F` holds.  At `F = True` this is partial correctness; a run whose
`F` is refuted returns (`wp.total`).

`loop n f a` runs `f 0`, …, `f (n - 1)`, passing a value on: the counted loop of the source.  Its
rule is induction on the number of rounds (`wp_loop`).

`Retains f x` says that no run of `x` changes what `f` observes of the state.  `Mirrors R x y` says
that from states related by `R` the programs `x` and `y` do the same: both fault, or both return the
same value and leave related states.
-/

namespace Arunos

variable {σ α β : Type} {F : Prop}

/-- From `s`, `x` returns with `Q`, or faults and `F` holds. -/
def wp (F : Prop) (x : StateT σ Option α) (s : σ) (Q : α → σ → Prop) : Prop :=
  match x.run s with
  | none => F
  | some (a, s') => Q a s'

theorem wp_pure {a : α} {s : σ} {Q : α → σ → Prop} (h : Q a s) : wp F (pure a) s Q := h

/-- The rest is run from where the first program ends. -/
theorem wp_bind {x : StateT σ Option α} {f : α → StateT σ Option β} {s : σ} {Q : β → σ → Prop}
    (h : wp F x s fun a s' => wp F (f a) s' Q) : wp F (x >>= f) s Q := by
  unfold wp at h ⊢
  rw [StateT.run_bind]
  cases hx : x.run s with
  | none => rw [hx] at h; exact h
  | some r => rw [hx] at h; exact h

/-- A weaker postcondition. -/
theorem wp_mono {x : StateT σ Option α} {s : σ} {Q R : α → σ → Prop} (h : wp F x s Q)
    (hQ : ∀ a s', Q a s' → R a s') : wp F x s R := by
  unfold wp at h ⊢
  cases hx : x.run s with
  | none => rw [hx] at h; exact h
  | some r => rw [hx] at h; exact hQ _ _ h

/-- A weaker condition on faults. -/
theorem wp_weaken {F' : Prop} {x : StateT σ Option α} {s : σ} {Q : α → σ → Prop} (h : wp F x s Q)
    (hF : F → F') : wp F' x s Q := by
  unfold wp at h ⊢
  cases hx : x.run s with
  | none => rw [hx] at h; exact hF h
  | some r => rw [hx] at h; exact h

/-- A spec of the first program, then the rest from what it guarantees. -/
theorem wp_seq {x : StateT σ Option α} {f : α → StateT σ Option β} {s : σ} {R : α → σ → Prop}
    {Q : β → σ → Prop} (h : wp F x s R) (hf : ∀ a s', R a s' → wp F (f a) s' Q) :
    wp F (x >>= f) s Q :=
  wp_bind (wp_mono h hf)

theorem wp_map {x : StateT σ Option α} {f : α → β} {s : σ} {Q : β → σ → Prop}
    (h : wp F x s fun a s' => Q (f a) s') : wp F (f <$> x) s Q := by
  rw [map_eq_pure_bind]
  exact wp_bind h

theorem wp_get {s : σ} {Q : σ → σ → Prop} (h : Q s s) : wp F get s Q := h

/-- A program that reads the state. -/
theorem wp_get_bind {f : σ → StateT σ Option α} {s : σ} {Q : α → σ → Prop}
    (h : wp F (f s) s Q) : wp F (get >>= f) s Q := wp_bind (wp_get h)

theorem wp_set {s t : σ} {Q : PUnit → σ → Prop} (h : Q ⟨⟩ t) : wp F (set t) s Q := h

/-- A program that sets the state. -/
theorem wp_set_bind {f : PUnit → StateT σ Option α} {s t : σ} {Q : α → σ → Prop}
    (h : wp F (f ⟨⟩) t Q) : wp F (set t >>= f) s Q := wp_bind (wp_set h)

theorem wp_modify {g : σ → σ} {s : σ} {Q : PUnit → σ → Prop} (h : Q ⟨⟩ (g s)) :
    wp F (modify g) s Q := h

/-- A program that changes the state. -/
theorem wp_modify_bind {g : σ → σ} {f : PUnit → StateT σ Option α} {s : σ} {Q : α → σ → Prop}
    (h : wp F (f ⟨⟩) (g s) Q) : wp F (modify g >>= f) s Q := wp_bind (wp_modify h)

theorem wp_fault {s : σ} {Q : α → σ → Prop} (h : F) :
    wp F (failure : StateT σ Option α) s Q := h

/-- Each branch is taken under its condition. -/
theorem wp_ite {c : Prop} [Decidable c] {x y : StateT σ Option α} {s : σ} {Q : α → σ → Prop}
    (hx : c → wp F x s Q) (hy : ¬ c → wp F y s Q) : wp F (if c then x else y) s Q := by
  split
  · exact hx ‹_›
  · exact hy ‹_›

/-- Every program satisfies the trivial spec. -/
theorem wp_trivial (x : StateT σ Option α) (s : σ) : wp True x s fun _ _ => True := by
  unfold wp
  split <;> trivial

/-- Two specs of one program. -/
theorem wp_and {F' : Prop} {x : StateT σ Option α} {s : σ} {Q R : α → σ → Prop} (hQ : wp F x s Q)
    (hR : wp F' x s R) : wp F x s fun a s' => Q a s' ∧ R a s' := by
  unfold wp at hQ hR ⊢
  cases hx : x.run s with
  | none => rw [hx] at hQ; exact hQ
  | some r => rw [hx] at hQ hR; exact ⟨hQ, hR⟩

/-- What a run that returned satisfies. -/
theorem wp.elim {x : StateT σ Option α} {s s' : σ} {a : α} {Q : α → σ → Prop} (h : wp F x s Q)
    (hr : x.run s = some (a, s')) : Q a s' := by
  unfold wp at h
  rw [hr] at h
  exact h

/-- A run that cannot fault returns. -/
theorem wp.total {x : StateT σ Option α} {s : σ} {Q : α → σ → Prop} (h : wp F x s Q)
    (hF : ¬ F) : ∃ a s', x.run s = some (a, s') ∧ Q a s' := by
  unfold wp at h
  cases hx : x.run s with
  | none => rw [hx] at h; exact absurd h hF
  | some r => rw [hx] at h; exact ⟨r.1, r.2, rfl, h⟩

/-- `for (i = 0; i < n; i++)`, passing `a` from round to round. -/
def loop : Nat → (Nat → α → StateT σ Option α) → α → StateT σ Option α
  | 0, _, a => pure a
  | n + 1, f, a => loop n f a >>= f n

/-- An invariant of the rounds holds after the loop. -/
theorem wp_loop {n : Nat} {f : Nat → α → StateT σ Option α} {a : α} {s : σ}
    (I : Nat → α → σ → Prop) (h₀ : I 0 a s)
    (hstep : ∀ i a s, i < n → I i a s → wp F (f i a) s (I (i + 1))) :
    wp F (loop n f a) s (I n) := by
  induction n with
  | zero => exact h₀
  | succ n ih =>
      refine wp_seq (ih fun i a s hi => hstep i a s (by omega)) fun a' s' h => ?_
      exact hstep n a' s' (by omega) h

-- a run is never unfolded: programs are taken apart by the rules above
attribute [irreducible] wp

/-! ### What no run changes -/

/-- No run of `x` changes what `f` observes of the state. -/
def Retains (f : σ → β) (x : StateT σ Option α) : Prop := ∀ s, wp True x s fun _ s' => f s' = f s

section Retains

variable {γ : Type} {f : σ → γ}

theorem retains_pure (a : α) : Retains f (pure a : StateT σ Option α) := fun _ => wp_pure rfl

theorem retains_get : Retains f (get : StateT σ Option σ) := fun _ => wp_get rfl

theorem retains_fault : Retains f (failure : StateT σ Option α) := fun _ => wp_fault trivial

/-- A change that `f` does not observe. -/
theorem retains_modify {g : σ → σ} (h : ∀ s, f (g s) = f s) :
    Retains f (modify g : StateT σ Option PUnit) := fun s => wp_modify (h s)

/-- Two programs that retain `f`, one after the other. -/
theorem retains_bind {x : StateT σ Option α} {y : α → StateT σ Option β} (hx : Retains f x)
    (hy : ∀ a, Retains f (y a)) : Retains f (x >>= y) := fun s =>
  wp_seq (hx s) fun a s' h => wp_mono (hy a s') fun _ _ h' => h'.trans h

theorem retains_ite {c : Prop} [Decidable c] {x y : StateT σ Option α} (hx : Retains f x)
    (hy : Retains f y) : Retains f (if c then x else y) := fun s =>
  wp_ite (fun _ => hx s) fun _ => hy s

end Retains

/-! ### Two programs side by side -/

/-- The same value, with states related by `R`. -/
inductive Agree {τ : Type} (R : σ → τ → Prop) : α × σ → α × τ → Prop where
  | intro (a : α) {s : σ} {t : τ} (h : R s t) : Agree R (a, s) (a, t)

/-- Results that agree have the same value. -/
theorem Agree.fst {τ : Type} {R : σ → τ → Prop} {p : α × σ} {q : α × τ} (h : Agree R p q) :
    p.1 = q.1 := by
  cases h
  rfl

/-- From related states `y` does what `x` does. -/
def Mirrors {τ : Type} (R : σ → τ → Prop) (x : StateT σ Option α) (y : StateT τ Option α) : Prop :=
  ∀ s t, R s t → Option.Rel (Agree R) (x.run s) (y.run t)

section Mirrors

variable {τ : Type} {R : σ → τ → Prop}

theorem mirrors_pure (a : α) : Mirrors R (pure a) (pure a) := fun _ _ h => .some (.intro a h)

theorem mirrors_fault : Mirrors R (failure : StateT σ Option α) failure := fun _ _ _ => .none

/-- One run after another, where the first relates its states by `R'`. -/
theorem agree_bind {R' : σ → τ → Prop} {x : StateT σ Option α} {y : StateT τ Option α}
    {f : α → StateT σ Option β} {g : α → StateT τ Option β} {s : σ} {t : τ}
    (hx : Option.Rel (Agree R') (x.run s) (y.run t))
    (hf : ∀ a s t, R' s t → Option.Rel (Agree R) ((f a).run s) ((g a).run t)) :
    Option.Rel (Agree R) ((x >>= f).run s) ((y >>= g).run t) := by
  rw [StateT.run_bind, StateT.run_bind]
  revert hx
  generalize x.run s = p, y.run t = q
  rintro (⟨⟨a, h⟩⟩ | _)
  · exact hf a _ _ h
  · exact .none

/-- Two mirrored programs, one after the other. -/
theorem mirrors_bind {x : StateT σ Option α} {y : StateT τ Option α} {f : α → StateT σ Option β}
    {g : α → StateT τ Option β} (hx : Mirrors R x y) (hf : ∀ a, Mirrors R (f a) (g a)) :
    Mirrors R (x >>= f) (y >>= g) := fun s t h => agree_bind (hx s t h) hf

/-- Both programs read their states. -/
theorem mirrors_get_bind {f : σ → StateT σ Option α} {g : τ → StateT τ Option α}
    (hf : ∀ s t, R s t → Mirrors R (f s) (g t)) : Mirrors R (get >>= f) (get >>= g) :=
  fun s t h => hf s t h s t h

/-- Changes that keep the relation. -/
theorem mirrors_modify {f : σ → σ} {g : τ → τ} (hf : ∀ s t, R s t → R (f s) (g t)) :
    Mirrors R (modify f) (modify g) := fun s t h => .some (.intro _ (hf s t h))

theorem mirrors_ite {c : Prop} [Decidable c] {x x' : StateT σ Option α} {y y' : StateT τ Option α}
    (hx : Mirrors R x y) (hx' : Mirrors R x' y') :
    Mirrors R (if c then x else x') (if c then y else y') := by
  split
  · exact hx
  · exact hx'

/-- The rounds of two loops, by induction on their number. -/
theorem mirrors_loop {n : Nat} {f : Nat → α → StateT σ Option α} {g : Nat → α → StateT τ Option α}
    (hf : ∀ i a, Mirrors R (f i a) (g i a)) (a : α) : Mirrors R (loop n f a) (loop n g a) := by
  induction n with
  | zero => exact mirrors_pure a
  | succ n ih => exact mirrors_bind ih (hf n)

end Mirrors

end Arunos
