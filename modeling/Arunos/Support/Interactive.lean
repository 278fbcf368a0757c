import Mathlib.Data.List.Infix

/-!
# Support — Interactive — programs that ask and are answered

An `Interactive ρ ι α` asks its environment questions of type `ρ`, is given answers of type `ι`, and
ends with a value of type `α` or goes on without end.  It is given by what it has done with the
answers `as`: its history, which pairs each question with its answer, and where it stands.  The
fields say that this is the behaviour of a program: it takes the answers in order, stands at a
question only when it has used all of them, and does not change its past when it is given more.

`loop` repeats a program.  A program that repeats a round without questions `spins`.

`Obeys G h x Q` is a rule of pre- and postconditions for such programs: after the history `h`, the
program `x` asks only what `G` allows, never spins, and has `Q` if it ends.
-/

namespace Arunos

/-- Where a program stands. -/
inductive Standing (ρ α : Type) where
  | asks (r : ρ)
  | ended (a : α)
  | spins

/-- A program that asks questions. -/
structure Interactive (ρ ι α : Type) where
  run : List ι → List (ρ × ι) × Standing ρ α
  used : ∀ as, (run as).1.map Prod.snd <+: as
  waits : ∀ {as h r}, run as = (h, .asks r) → h.length = as.length
  ends : ∀ {as h a}, run as = (h, .ended a) → ∀ bs, run (as ++ bs) = (h, .ended a)
  goes : ∀ {as h r}, run as = (h, .asks r) → ∀ b, ∃ h', (run (as ++ [b])).1 = h ++ (r, b) :: h'

namespace Interactive

variable {ρ ι α β σ : Type}

/-! ### The answers taken -/

/-- A run uses its answers in order. -/
theorem used_of {x : Interactive ρ ι α} {as : List ι} {h : List (ρ × ι)} {st : Standing ρ α}
    (hrun : x.run as = (h, st)) : h.map Prod.snd <+: as := by
  have hused := x.used as
  rwa [hrun] at hused

/-- A run makes no more requests than there are answers. -/
theorem length_le {x : Interactive ρ ι α} {as : List ι} {h : List (ρ × ι)} {st : Standing ρ α}
    (hrun : x.run as = (h, st)) : h.length ≤ as.length := by
  simpa using (used_of hrun).length_le

/-- The answers are those of the history, then the ones not taken. -/
theorem answers_eq {x : Interactive ρ ι α} {as : List ι} {h : List (ρ × ι)} {st : Standing ρ α}
    (hrun : x.run as = (h, st)) : as = h.map Prod.snd ++ as.drop h.length := by
  obtain ⟨rest, hrest⟩ := used_of hrun
  rw [← hrest, List.drop_append_of_le_length (List.length_map _).ge]
  simp

/-- With one more answer the history has one more entry. -/
theorem run_concat {x : Interactive ρ ι α} {as : List ι} {h : List (ρ × ι)} {r : ρ}
    (hrun : x.run as = (h, .asks r)) (b : ι) : (x.run (as ++ [b])).1 = h ++ [(r, b)] := by
  obtain ⟨h', hh'⟩ := x.goes hrun b
  have hle := (x.used (as ++ [b])).length_le
  rw [hh'] at hle
  have hlength := x.waits hrun
  simp only [List.length_map, List.length_append, List.length_cons, List.length_nil] at hle
  rw [hh', List.length_eq_zero_iff.mp (show h'.length = 0 by omega)]

/-! ### Programs -/

/-- The program that ends at once. -/
def ret (a : α) : Interactive ρ ι α where
  run _ := ([], .ended a)
  used _ := List.nil_prefix
  waits h := by cases h
  ends h _ := h
  goes h := by cases h

/-- The program that never asks and never ends. -/
def spin : Interactive ρ ι α where
  run _ := ([], .spins)
  used _ := List.nil_prefix
  waits h := by cases h
  ends h := by cases h
  goes h := by cases h

/-- The program that asks one question. -/
def ask (r : ρ) : Interactive ρ ι ι where
  run
    | [] => ([], .asks r)
    | a :: _ => ([(r, a)], .ended a)
  used as := by
    cases as with
    | nil => exact List.nil_prefix
    | cons a as => exact ⟨as, rfl⟩
  waits {as h r'} hrun := by
    cases as with
    | nil => cases hrun; rfl
    | cons a as => cases hrun
  ends {as h a} hrun bs := by
    cases as with
    | nil => cases hrun
    | cons b as => exact hrun
  goes {as h r'} hrun b := by
    cases as with
    | nil => cases hrun; exact ⟨[], rfl⟩
    | cons a as => cases hrun

/-- What is done after the history `h`. -/
def after (h : List (ρ × ι)) (p : List (ρ × ι) × Standing ρ α) : List (ρ × ι) × Standing ρ α :=
  (h ++ p.1, p.2)

/-- A run after a history has that history before its own. -/
theorem after_eq {h h' : List (ρ × ι)} {p : List (ρ × ι) × Standing ρ α} {st : Standing ρ α}
    (hp : after h p = (h', st)) : p.2 = st ∧ h' = h ++ p.1 := by
  obtain ⟨rfl, rfl⟩ := Prod.mk.inj hp
  exact ⟨rfl, rfl⟩

/-- Where the program `f` goes on from the end of `x`. -/
def thenRun (x : Interactive ρ ι α) (f : α → Interactive ρ ι β) (as : List ι) :
    List (ρ × ι) × Standing ρ β :=
  match x.run as with
  | (h, .ended a) => after h ((f a).run (as.drop h.length))
  | (h, .asks r) => (h, .asks r)
  | (h, .spins) => (h, .spins)

section Then

variable {x : Interactive ρ ι α} {f : α → Interactive ρ ι β} {as : List ι} {h : List (ρ × ι)}

/-- When the first program has ended, the second runs on the answers that are left. -/
theorem thenRun_ended {a : α} (hx : x.run as = (h, .ended a)) :
    thenRun x f as = after h ((f a).run (as.drop h.length)) := by
  rw [thenRun, hx]

/-- A program that asks has not come to the second one. -/
theorem thenRun_asks {r : ρ} (hx : x.run as = (h, .asks r)) : thenRun x f as = (h, .asks r) := by
  rw [thenRun, hx]

theorem thenRun_spins (hx : x.run as = (h, .spins)) : thenRun x f as = (h, .spins) := by
  rw [thenRun, hx]

/-- The history of `x` is the beginning. -/
theorem prefix_thenRun (x : Interactive ρ ι α) (f : α → Interactive ρ ι β) (as : List ι) :
    (x.run as).1 <+: (thenRun x f as).1 := by
  rcases hx : x.run as with ⟨h, r | a | _⟩
  · rw [thenRun_asks hx]
  · rw [thenRun_ended hx]
    exact List.prefix_append _ _
  · rw [thenRun_spins hx]

theorem drop_length_append {a : α} (hx : x.run as = (h, .ended a)) (bs : List ι) :
    (as ++ bs).drop h.length = as.drop h.length ++ bs :=
  List.drop_append_of_le_length (length_le hx)

end Then

/-- The program that goes on with the value of another. -/
def andThen (x : Interactive ρ ι α) (f : α → Interactive ρ ι β) : Interactive ρ ι β where
  run := thenRun x f
  used as := by
    rcases hx : x.run as with ⟨h, r | a | _⟩
    · rw [thenRun_asks hx]
      exact used_of hx
    · rw [thenRun_ended hx, answers_eq hx]
      simp only [after, List.map_append]
      refine (List.prefix_append_right_inj _).mpr ?_
      rw [← answers_eq hx]
      exact (f a).used _
    · rw [thenRun_spins hx]
      exact used_of hx
  waits {as h' r'} hrun := by
    rcases hx : x.run as with ⟨h, r | a | _⟩
    · rw [thenRun_asks hx] at hrun
      cases hrun
      exact x.waits hx
    · rw [thenRun_ended hx] at hrun
      obtain ⟨hst, rfl⟩ := after_eq hrun
      have hwait := (f a).waits (Prod.ext rfl hst)
      have hle := length_le hx
      rw [List.length_append, hwait, List.length_drop]
      omega
    · rw [thenRun_spins hx] at hrun
      cases hrun
  ends {as h' b} hrun bs := by
    rcases hx : x.run as with ⟨h, r | a | _⟩
    · rw [thenRun_asks hx] at hrun
      cases hrun
    · rw [thenRun_ended hx] at hrun
      obtain ⟨hst, rfl⟩ := after_eq hrun
      rw [thenRun_ended (x.ends hx bs), drop_length_append hx, (f a).ends (Prod.ext rfl hst) bs]
      rfl
    · rw [thenRun_spins hx] at hrun
      cases hrun
  goes {as h' r'} hrun b := by
    rcases hx : x.run as with ⟨h, r | a | _⟩
    · rw [thenRun_asks hx] at hrun
      cases hrun
      obtain ⟨h₁, hh₁⟩ := x.goes hx b
      obtain ⟨h₂, hh₂⟩ := prefix_thenRun x f (as ++ [b])
      exact ⟨h₁ ++ h₂, by rw [← hh₂, hh₁]; simp⟩
    · rw [thenRun_ended hx] at hrun
      obtain ⟨hst, rfl⟩ := after_eq hrun
      obtain ⟨h₁, hh₁⟩ := (f a).goes (Prod.ext rfl hst) b
      refine ⟨h₁, ?_⟩
      rw [thenRun_ended (x.ends hx [b]), drop_length_append hx]
      simp only [after, hh₁, List.append_assoc]
    · rw [thenRun_spins hx] at hrun
      cases hrun

instance : Monad (Interactive ρ ι) where
  pure := ret
  bind := andThen

/-! ### Loops -/

/-- At most `n` rounds of a loop: a round goes on with a next state or ends the loop. -/
def rounds (body : σ → Interactive ρ ι (σ ⊕ α)) : Nat → σ → Interactive ρ ι α
  | 0, _ => spin
  | n + 1, s => andThen (body s) fun
      | .inl s' => rounds body n s'
      | .inr a => ret a

section Rounds

variable {body : σ → Interactive ρ ι (σ ⊕ α)} {n : Nat} {s s' : σ} {as : List ι}
  {h : List (ρ × ι)}

/-- A round that goes on is followed by the others. -/
theorem rounds_inl (hx : (body s).run as = (h, .ended (.inl s'))) :
    (rounds body (n + 1) s).run as = after h ((rounds body n s').run (as.drop h.length)) :=
  thenRun_ended hx

/-- A round that ends the loop ends it. -/
theorem rounds_inr {a : α} (hx : (body s).run as = (h, .ended (.inr a))) :
    (rounds body (n + 1) s).run as = (h, .ended a) := by
  refine (thenRun_ended hx).trans ?_
  simp [after, ret]

theorem rounds_asks {r : ρ} (hx : (body s).run as = (h, .asks r)) :
    (rounds body (n + 1) s).run as = (h, .asks r) := thenRun_asks hx

theorem rounds_spins (hx : (body s).run as = (h, .spins)) :
    (rounds body (n + 1) s).run as = (h, .spins) := thenRun_spins hx

/-- More rounds do not change what is done without them. -/
theorem rounds_succ (body : σ → Interactive ρ ι (σ ⊕ α)) (n : Nat) (s : σ) (as : List ι) :
    ((rounds body n s).run as).1 <+: ((rounds body (n + 1) s).run as).1 ∧
      (((rounds body n s).run as).2 ≠ .spins →
        (rounds body (n + 1) s).run as = (rounds body n s).run as) := by
  induction n generalizing s as with
  | zero => exact ⟨List.nil_prefix, fun hne => absurd rfl hne⟩
  | succ n ih =>
      rcases hx : (body s).run as with ⟨h, r | (s' | a) | _⟩
      · rw [rounds_asks hx, rounds_asks hx]
        exact ⟨List.prefix_rfl, fun _ => rfl⟩
      · rw [rounds_inl hx, rounds_inl hx]
        obtain ⟨hpre, heq⟩ := ih s' (as.drop h.length)
        exact ⟨(List.prefix_append_right_inj _).mpr hpre, fun hne => by rw [heq hne]⟩
      · rw [rounds_inr hx, rounds_inr hx]
        exact ⟨List.prefix_rfl, fun _ => rfl⟩
      · rw [rounds_spins hx, rounds_spins hx]
        exact ⟨List.prefix_rfl, fun _ => rfl⟩

/-- More rounds only add to a run that has not come to an end. -/
theorem rounds_add (body : σ → Interactive ρ ι (σ ⊕ α)) (n d : Nat) (s : σ) (as : List ι) :
    ((rounds body n s).run as).1 <+: ((rounds body (n + d) s).run as).1 ∧
      (((rounds body n s).run as).2 ≠ .spins →
        (rounds body (n + d) s).run as = (rounds body n s).run as) := by
  induction d with
  | zero => exact ⟨List.prefix_rfl, fun _ => rfl⟩
  | succ d ih =>
      obtain ⟨hpre, heq⟩ := ih
      obtain ⟨hpre', heq'⟩ := rounds_succ body (n + d) s as
      refine ⟨hpre.trans hpre', fun hne => ?_⟩
      have hsame := heq hne
      exact (heq' (by rwa [hsame])).trans hsame

end Rounds

/-- Rounds without end.  There are as many as there are answers, and one more that waits for the
next answer. -/
def loop (body : σ → Interactive ρ ι (σ ⊕ α)) (s : σ) : Interactive ρ ι α where
  run as := (rounds body (as.length + 1) s).run as
  used as := (rounds body (as.length + 1) s).used as
  waits hrun := (rounds body _ s).waits hrun
  ends {as h a} hrun bs := by
    have hends := (rounds body (as.length + 1) s).ends hrun bs
    have hmore := (rounds_add body (as.length + 1) bs.length s (as ++ bs)).2 (by simp [hends])
    rw [List.length_append, Nat.add_right_comm, hmore]
    exact hends
  goes {as h r} hrun b := by
    obtain ⟨h₁, hh₁⟩ := (rounds body (as.length + 1) s).goes hrun b
    obtain ⟨h₂, hh₂⟩ := (rounds_succ body (as.length + 1) s (as ++ [b])).1
    refine ⟨h₁ ++ h₂, ?_⟩
    rw [List.length_append, List.length_singleton, ← hh₂, hh₁]
    simp

/-! ### What programs ask -/

/-- Where a program stands is allowed: at a question with `G`, or at an end with `Q`. -/
inductive Meets (G : List (ρ × ι) → ρ → Prop) (Q : α → List (ρ × ι) → Prop) (h : List (ρ × ι)) :
    List (ρ × ι) × Standing ρ α → Prop
  | asks {h' : List (ρ × ι)} {r : ρ} (hr : G (h ++ h') r) : Meets G Q h (h', .asks r)
  | ended {h' : List (ρ × ι)} {a : α} (ha : Q a (h ++ h')) : Meets G Q h (h', .ended a)

/-- After the history `h`, every question of `x` is one that `G` allows, `x` does not spin, and if
it ends then with `Q`. -/
def Obeys (G : List (ρ × ι) → ρ → Prop) (h : List (ρ × ι)) (x : Interactive ρ ι α)
    (Q : α → List (ρ × ι) → Prop) : Prop :=
  ∀ as, Meets G Q h (x.run as)

variable {G : List (ρ × ι) → ρ → Prop} {h : List (ρ × ι)} {Q Q' : α → List (ρ × ι) → Prop}

theorem meets_after {h₁ : List (ρ × ι)} {p : List (ρ × ι) × Standing ρ α}
    (hp : Meets G Q (h ++ h₁) p) : Meets G Q h (after h₁ p) := by
  cases hp with
  | asks hr => exact .asks (by rwa [← List.append_assoc])
  | ended ha => exact .ended (by rwa [← List.append_assoc])

theorem obeys_pure {a : α} (hQ : Q a h) : Obeys G h (pure a) Q :=
  fun _ => .ended (by rwa [List.append_nil])

/-- A request that is allowed, with any answer. -/
theorem obeys_ask {r : ρ} {Q : ι → List (ρ × ι) → Prop} (hG : G h r)
    (hQ : ∀ a, Q a (h ++ [(r, a)])) : Obeys G h (ask r) Q := by
  intro as
  cases as with
  | nil => exact .asks (by rwa [List.append_nil])
  | cons a as => exact .ended (hQ a)

/-- A weaker postcondition. -/
theorem Obeys.mono {x : Interactive ρ ι α} (hx : Obeys G h x Q)
    (hQ : ∀ a h', Q a h' → Q' a h') : Obeys G h x Q' := by
  intro as
  generalize hp : x.run as = p
  cases hp ▸ hx as with
  | asks hr => exact .asks hr
  | ended ha => exact .ended (hQ _ _ ha)

/-- A weaker condition on the requests. -/
theorem Obeys.weaken {G' : List (ρ × ι) → ρ → Prop} {x : Interactive ρ ι α} (hx : Obeys G h x Q)
    (hG : ∀ h' r, G h' r → G' h' r) : Obeys G' h x Q := by
  intro as
  generalize hp : x.run as = p
  cases hp ▸ hx as with
  | asks hr => exact .asks (hG _ _ hr)
  | ended ha => exact .ended ha

/-- A program only adds to the history. -/
theorem Obeys.extends {x : Interactive ρ ι α} (hx : Obeys G h x Q) :
    Obeys G h x fun a h' => Q a h' ∧ h <+: h' := by
  intro as
  generalize hp : x.run as = p
  cases hp ▸ hx as with
  | asks hr => exact .asks hr
  | ended ha => exact .ended ⟨ha, List.prefix_append _ _⟩

theorem obeys_andThen {x : Interactive ρ ι α} {f : α → Interactive ρ ι β}
    {Q : β → List (ρ × ι) → Prop} (hx : Obeys G h x fun a h' => Obeys G h' (f a) Q) :
    Obeys G h (andThen x f) Q := by
  intro as
  show Meets G Q h (thenRun x f as)
  generalize hp : x.run as = p
  cases hp ▸ hx as with
  | asks hr =>
      rw [thenRun_asks hp]
      exact .asks hr
  | ended ha =>
      rw [thenRun_ended hp]
      exact meets_after (ha _)

/-- The rest is run from the history of the first program. -/
theorem obeys_bind {x : Interactive ρ ι α} {f : α → Interactive ρ ι β}
    {Q : β → List (ρ × ι) → Prop} (hx : Obeys G h x fun a h' => Obeys G h' (f a) Q) :
    Obeys G h (x >>= f) Q := obeys_andThen hx

/-- What a round of a loop leaves: a next state with `I` and a longer history, or an end. -/
def Round (I : σ → List (ρ × ι) → Prop) (Q : α → List (ρ × ι) → Prop) (h : List (ρ × ι)) :
    σ ⊕ α → List (ρ × ι) → Prop
  | .inl s', h' => I s' h' ∧ h.length < h'.length
  | .inr a, h' => Q a h'

/-- A loop obeys what its rounds keep, if every round that does not end it asks something. -/
theorem obeys_loop {body : σ → Interactive ρ ι (σ ⊕ α)} (I : σ → List (ρ × ι) → Prop)
    (hbody : ∀ s h, I s h → Obeys G h (body s) (Round I Q h)) {s : σ} (hs : I s h) :
    Obeys G h (loop body s) Q := by
  suffices hrounds : ∀ n s h as, as.length < n → I s h → Meets G Q h ((rounds body n s).run as) from
    fun as => hrounds _ s h as (Nat.lt_succ_self _) hs
  intro n
  induction n with
  | zero => exact fun s h as hlt => absurd hlt (Nat.not_lt_zero _)
  | succ n ih =>
      intro s h as hlt hs
      generalize hx : (body s).run as = p
      cases hx ▸ hbody s h hs as with
      | asks hr =>
          rw [rounds_asks hx]
          exact .asks hr
      | @ended h₁ next hround =>
          cases next with
          | inl s' =>
              obtain ⟨hs', hmore⟩ := hround
              rw [List.length_append] at hmore
              -- the answers that are left are fewer
              have hle := length_le hx
              rw [rounds_inl hx]
              exact meets_after (ih s' _ _ (by rw [List.length_drop]; omega) hs')
          | inr a =>
              rw [rounds_inr hx]
              exact .ended hround

/-- The question a program stands at is allowed. -/
theorem Obeys.asks {x : Interactive ρ ι α} (hx : Obeys G [] x Q) {as : List ι}
    {h : List (ρ × ι)} {r : ρ} (hrun : x.run as = (h, .asks r)) : G h r := by
  cases hrun ▸ hx as with
  | asks hr => exact hr

end Interactive

end Arunos
