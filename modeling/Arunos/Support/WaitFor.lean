import Mathlib.Data.Fintype.Card
import Mathlib.Logic.Relation
import Mathlib.Order.WellFounded

/-!
# Support — WaitFor — processes that wait for each other's end

A table gives each slot nothing, a ready process or one that waits for the process in a slot to
end.  It changes by moves: a process is created in an empty slot, a ready process starts to wait
for one that exists, or a ready process ends and those that wait for it become ready.

* `Sound` — who waits, waits for a process that exists — is kept by every legal move, and a
  waiting process becomes ready at the move that ends the process it waits for and at no other
  (`waiting_move`).
* Slots are used again, so a slot's process is told apart by the slot's number of births.  `Lives`
  records them, and for each waiting process the birth it has asked for: that is the one it waits
  for as long as it waits (`Lives.Ok`).  `Lives.forked` records which birth was a process's own
  last doing.
* The relation `WaitsOn` stays free of cycles as long as nobody starts to wait for a process that
  waits, directly or through others, for it (`Acyclic.move`).  Then while any process exists, one
  of them is ready (`Acyclic.exists_ready`).
* `Seniority` records when each process was born and the slots that its own doings have filled.  A
  process that waits only for slots it has filled itself waits for a younger process, though it may
  not be the one it has created there; so no cycle arises (`Seniority.Ok.acyclic`).
-/

namespace Arunos

variable {ι : Type*}

/-- What a process is doing. -/
inductive Status (ι : Type*) where
  | ready
  | waiting (on : ι)
deriving DecidableEq

/-- The processes of the slots. -/
abbrev Table (ι : Type*) := ι → Option (Status ι)

/-- The changes of a table. -/
inductive Move (ι : Type*) where
  | stay
  | create (child : ι)
  | wait (caller target : ι)
  | exit (caller : ι)
deriving DecidableEq

section Moves

variable [DecidableEq ι] {t t' : Table ι} {m : Move ι} {i c d : ι}

/-- The end of the process in `c`, seen by another one. -/
def wake (c : ι) : Option (Status ι) → Option (Status ι)
  | some (.waiting d) => if d = c then some .ready else some (.waiting d)
  | o => o

/-- The table after a move. -/
def Move.apply (t : Table ι) : Move ι → Table ι
  | .stay => t
  | .create i => Function.update t i (some .ready)
  | .wait c d => Function.update t c (some (.waiting d))
  | .exit c => Function.update (fun i => wake c (t i)) c none

/-- The moves that a table allows. -/
def Move.Legal (t : Table ι) : Move ι → Prop
  | .stay => True
  | .create i => t i = none
  | .wait c d => t c = some .ready ∧ t d ≠ none
  | .exit c => t c = some .ready

/-- No slot becomes empty or comes into use by a wake-up. -/
theorem wake_eq_none {o : Option (Status ι)} : wake c o = none ↔ o = none := by
  rcases o with _ | _ | d
  · rfl
  · simp [wake]
  · by_cases h : d = c <;> simp [wake, h]

/-- After the end of `c` nobody waits for `c`, and the others go on waiting. -/
theorem wake_eq_waiting {o : Option (Status ι)} :
    wake c o = some (.waiting d) ↔ o = some (.waiting d) ∧ d ≠ c := by
  rcases o with _ | _ | e
  · simp [wake]
  · simp [wake]
  · by_cases h : e = c
    · subst h
      simp only [wake, if_true, Option.some.injEq, reduceCtorEq, Status.waiting.injEq, false_iff]
      rintro ⟨rfl, hd⟩
      exact hd rfl
    · simp only [wake, h, if_false, Option.some.injEq, Status.waiting.injEq]
      exact ⟨fun e => ⟨e, e ▸ h⟩, And.left⟩

/-- A slot stays in use unless its process ends. -/
theorem Move.apply_ne_none (h : t i ≠ none) (he : m ≠ .exit i) : m.apply t i ≠ none := by
  cases m with
  | stay => exact h
  | create j =>
      by_cases hj : i = j
      · simp [apply, hj]
      · simpa [apply, hj] using h
  | wait c d =>
      by_cases hc : i = c
      · simp [apply, hc]
      · simpa [apply, hc] using h
  | exit c =>
      have hc : i ≠ c := fun e => he (e ▸ rfl)
      rw [apply, Function.update_of_ne hc]
      exact fun e => h (wake_eq_none.mp e)

/-- A slot comes into use when a process is created in it. -/
theorem Move.eq_create (hl : m.Legal t) (h : t i = none) (h' : m.apply t i ≠ none) :
    m = .create i := by
  cases m with
  | stay => exact absurd h h'
  | create j =>
      by_cases hj : i = j
      · rw [hj]
      · exact absurd (by simpa [apply, hj] using h) h'
  | wait c d =>
      have hc : i ≠ c := by
        rintro rfl
        exact absurd (h.symm.trans hl.1) (by simp)
      exact absurd (by simpa [apply, hc] using h) h'
  | exit c =>
      by_cases hc : i = c
      · simp [apply, hc] at h'
      · rw [apply, Function.update_of_ne hc, h] at h'
        exact absurd rfl h'

/-- **No lost wake-up**: who waits for `d` becomes ready when the process in `d` ends, and
otherwise keeps waiting for it. -/
theorem waiting_move (hl : m.Legal t) (h : t i = some (.waiting d)) :
    (m = .exit d ∧ m.apply t i = some .ready) ∨
      (m ≠ .exit d ∧ m.apply t i = some (.waiting d)) := by
  cases m with
  | stay => exact .inr ⟨by simp, h⟩
  | create j =>
      have hj : i ≠ j := by
        rintro rfl
        exact absurd (h.symm.trans hl) (by simp)
      exact .inr ⟨by simp, by simpa [Move.apply, hj] using h⟩
  | wait c e =>
      have hc : i ≠ c := by
        rintro rfl
        exact absurd (h.symm.trans hl.1) (by simp)
      exact .inr ⟨by simp, by simpa [Move.apply, hc] using h⟩
  | exit c =>
      have hc : i ≠ c := by
        rintro rfl
        exact absurd (h.symm.trans hl) (by simp)
      rw [Move.apply, Function.update_of_ne hc, h]
      by_cases hd : d = c
      · exact .inl ⟨by rw [hd], by simp [wake, hd]⟩
      · exact .inr ⟨by simpa using fun e => hd e.symm, by simp [wake, hd]⟩

/-- Who waits after a move has waited before or has just started to. -/
theorem waiting_of_move (hl : m.Legal t) (h : m.apply t i = some (.waiting d)) :
    t i = some (.waiting d) ∨ m = .wait i d := by
  cases m with
  | stay => exact .inl h
  | create j =>
      by_cases hj : i = j
      · simp [Move.apply, hj] at h
      · exact .inl (by simpa [Move.apply, hj] using h)
  | wait c e =>
      by_cases hc : i = c
      · subst hc
        simp only [Move.apply, Function.update_self, Option.some.injEq, Status.waiting.injEq] at h
        exact .inr (by rw [h])
      · exact .inl (by simpa [Move.apply, hc] using h)
  | exit c =>
      by_cases hc : i = c
      · simp [Move.apply, hc] at h
      · rw [Move.apply, Function.update_of_ne hc] at h
        exact .inl (wake_eq_waiting.mp h).1

/-- Who waits, waits for a process that exists. -/
def Sound (t : Table ι) : Prop := ∀ i d, t i = some (.waiting d) → t d ≠ none

/-- Nobody is left waiting for a process that has ended. -/
theorem Sound.move (hs : Sound t) (hl : m.Legal t) : Sound (m.apply t) := by
  intro i d h
  rcases waiting_of_move hl h with hw | rfl
  · rcases waiting_move hl hw with ⟨-, hr⟩ | ⟨hne, -⟩
    · rw [hr] at h
      cases h
    · exact Move.apply_ne_none (hs i d hw) hne
  · exact Move.apply_ne_none hl.2 (by simp)

/-! ### Births -/

/-- The births in each slot, the birth that each waiting process waits for, and the birth that was
each process's own last doing. -/
structure Lives (ι : Type*) where
  births : ι → Nat
  awaited : ι → Nat
  forked : ι → Option (ι × Nat)

/-- The record at the start. -/
def Lives.start : Lives ι := ⟨fun _ => 0, fun _ => 0, fun _ => none⟩

/-- The births after a step from `t` to `t'`. -/
def Lives.bear (l : Lives ι) (t t' : Table ι) (i : ι) : Nat :=
  if t i = none ∧ t' i ≠ none then l.births i + 1 else l.births i

/-- The birth awaited after a step from `t` to `t'`. -/
def Lives.await (l : Lives ι) (t t' : Table ι) (i : ι) : Nat :=
  match t i, t' i with
  | some .ready, some (.waiting d) => l.births d
  | _, _ => l.awaited i

/-- The record after a step from `t` to `t'`, in which `fork.1` has created `fork.2`. -/
def Lives.record (l : Lives ι) (t t' : Table ι) (fork : Option (ι × ι)) : Lives ι where
  births := l.bear t t'
  awaited := l.await t t'
  forked i :=
    match fork with
    | some (p, c) =>
        if i = p then some (c, l.bear t t' c)
        else if t i = none ∧ t' i ≠ none then none else l.forked i
    | none => if t i = none ∧ t' i ≠ none then none else l.forked i

/-- The process that one waits for is still the one it asked for. -/
def Lives.Ok (l : Lives ι) (t : Table ι) : Prop :=
  ∀ i d, t i = some (.waiting d) → l.awaited i = l.births d

omit [DecidableEq ι] in
theorem Lives.bear_of_ne_none {l : Lives ι} (h : t i ≠ none) : l.bear t t' i = l.births i :=
  if_neg fun e => h e.1

omit [DecidableEq ι] in
theorem Lives.await_self (l : Lives ι) : l.await t t = l.awaited := by
  funext i
  unfold await
  split
  next h₁ h₂ => cases h₁.symm.trans h₂
  · rfl

/-- A step that leaves the table as it is leaves the record as it is. -/
theorem Lives.record_self (l : Lives ι) : l.record t t none = l := by
  have hb : ∀ i, ¬ (t i = none ∧ t i ≠ none) := fun i h => h.2 h.1
  simp only [record, await_self, hb, if_false]
  exact congrArg (fun b => Lives.mk b l.awaited l.forked) (funext fun i => if_neg (hb i))

/-- The process that one waits for stays the one it asked for. -/
theorem Lives.Ok.move {l : Lives ι} (h : l.Ok t) (hs : Sound t) (hl : m.Legal t)
    (fork : Option (ι × ι)) : (l.record t (m.apply t) fork).Ok (m.apply t) := by
  intro i d hw
  have hgoal : ∀ hd : t d ≠ none, (l.record t (m.apply t) fork).births d = l.births d :=
    fun hd => bear_of_ne_none hd
  rcases waiting_of_move hl hw with h₁ | rfl
  · have ha : l.await t (m.apply t) i = l.awaited i := by simp [await, h₁]
    rw [hgoal (hs i d h₁)]
    exact ha.trans (h i d h₁)
  · have ha : l.await t (Move.apply t (.wait i d)) i = l.births d := by
      simp [await, hl.1, Move.apply]
    rw [hgoal hl.2]
    exact ha

/-- Who waits for the slot of its own last doing waits for that birth. -/
def Lives.OwnOk (l : Lives ι) (t : Table ι) : Prop :=
  ∀ i d n, t i = some (.waiting d) → l.forked i = some (d, n) → l.births d = n

/-- Nobody starts to wait for the slot of its own last doing after another birth there. -/
theorem Lives.OwnOk.move {l : Lives ι} {fork : Option (ι × ι)} (h : l.OwnOk t) (hs : Sound t)
    (hl : m.Legal t) (hw : ∀ i d n, m = .wait i d → l.forked i = some (d, n) → l.births d = n) :
    (l.record t (m.apply t) fork).OwnOk (m.apply t) := by
  intro i d n hi hfk
  -- who waits now was there before, and so was the process it waits for
  have hold : t i ≠ none ∧ t d ≠ none ∧ (l.forked i = some (d, n) → l.births d = n) := by
    rcases waiting_of_move hl hi with h₁ | rfl
    · exact ⟨by simp [h₁], hs i d h₁, h i d n h₁⟩
    · exact ⟨by simp [hl.1], hl.2, hw i d n rfl⟩
  obtain ⟨hti, htd, hbirth⟩ := hold
  have hborn : ¬(t i = none ∧ m.apply t i ≠ none) := fun e => hti e.1
  rcases fork with _ | ⟨p, c⟩
  · simp only [record, hborn, if_false] at hfk
    exact (bear_of_ne_none htd).trans (hbirth hfk)
  · simp only [record, hborn, if_false] at hfk
    split at hfk
    · cases hfk
      rfl
    · exact (bear_of_ne_none htd).trans (hbirth hfk)

/-- The child recorded for a process is still the last birth in its slot. -/
def Lives.KinOk (l : Lives ι) (t : Table ι) : Prop :=
  ∀ i c n, t i ≠ none → l.forked i = some (c, n) → n = l.births c

/-- No process is born in a slot that another process, which goes on, has recorded for its own
child. -/
def Lives.Fresh (l : Lives ι) (t t' : Table ι) (fork : Option (ι × ι)) : Prop :=
  ∀ c, t c = none → t' c ≠ none → ∀ i n, t i ≠ none → l.forked i = some (c, n) → fork = some (i, c)

/-- A process that goes on keeps its last child, if no other is born in its slot. -/
theorem Lives.KinOk.move {l : Lives ι} {fork : Option (ι × ι)} (h : l.KinOk t)
    (hf : l.Fresh t t' fork) : (l.record t t' fork).KinOk t' := by
  -- a process that goes on and has not forked: its record is about an old birth
  have hold : ∀ i c n, (∀ p, fork ≠ some (i, p)) → t' i ≠ none →
      (if t i = none ∧ t' i ≠ none then none else l.forked i) = some (c, n) →
      n = l.bear t t' c := by
    intro i c n hp hi hfk
    split at hfk
    · cases hfk
    next hb =>
      have hti : t i ≠ none := fun e => hb ⟨e, hi⟩
      rw [h i c n hti hfk, bear]
      split
      next hc => exact absurd (hf c hc.1 hc.2 i n hti hfk) (hp c)
      · rfl
  intro i c n hi hfk
  rcases fork with _ | ⟨p, q⟩
  · exact hold i c n (by simp) hi hfk
  · simp only [record] at hfk
    split at hfk
    · cases hfk
      rfl
    next hne => exact hold i c n (by simpa using fun e => absurd e.symm hne) hi hfk

end Moves

/-! ### Cycles -/

section Cycles

open Relation

variable {t : Table ι} {c d : ι}

/-- `i` waits for `j`. -/
def WaitsOn (t : Table ι) (i j : ι) : Prop := t i = some (.waiting j)

/-- Nobody waits, directly or through others, for itself. -/
def Acyclic (t : Table ι) : Prop := ∀ i, ¬ TransGen (WaitsOn t) i i

/-- A path after a new edge from `c` to `d` is an old one or goes through the edge. -/
theorem transGen_insert {r r' : ι → ι → Prop} (hr : ∀ x y, r' x y → r x y ∨ (x = c ∧ y = d))
    {x y : ι} (h : TransGen r' x y) :
    TransGen r x y ∨ (ReflTransGen r x c ∧ ReflTransGen r d y) := by
  induction h with
  | single h =>
      rcases hr _ _ h with h | ⟨rfl, rfl⟩
      · exact .inl (.single h)
      · exact .inr ⟨.refl, .refl⟩
  | tail _ h ih =>
      rcases hr _ _ h with h | ⟨rfl, rfl⟩
      · rcases ih with ih | ⟨h₁, h₂⟩
        · exact .inl (ih.tail h)
        · exact .inr ⟨h₁, h₂.tail h⟩
      · rcases ih with ih | ⟨h₁, -⟩
        · exact .inr ⟨ih.to_reflTransGen, .refl⟩
        · exact .inr ⟨h₁, .refl⟩

/-- **No cycle arises** unless a process starts to wait for one that waits for it. -/
theorem Acyclic.move [DecidableEq ι] {m : Move ι} (ha : Acyclic t) (hl : m.Legal t)
    (hw : ∀ c d, m = .wait c d → ¬ ReflTransGen (WaitsOn t) d c) : Acyclic (m.apply t) := by
  intro i h
  by_cases hm : ∃ c d, m = .wait c d
  · obtain ⟨c, d, rfl⟩ := hm
    have hr : ∀ x y, WaitsOn (Move.apply t (.wait c d)) x y → WaitsOn t x y ∨ (x = c ∧ y = d) := by
      intro x y hxy
      rcases waiting_of_move hl hxy with h | h
      · exact .inl h
      · cases h
        exact .inr ⟨rfl, rfl⟩
    rcases transGen_insert hr h with h | ⟨h₁, h₂⟩
    · exact ha i h
    · exact hw c d rfl (h₂.trans h₁)
  · refine ha i (TransGen.mono (fun x y hxy => ?_) _ _ h)
    rcases waiting_of_move hl hxy with h | h
    · exact h
    · exact absurd ⟨x, y, h⟩ hm

/-- Without cycles one can do induction on who waits for whom. -/
theorem Acyclic.wellFounded [Finite ι] (ha : Acyclic t) :
    WellFounded fun i j => TransGen (WaitsOn t) j i := by
  have htrans : IsTrans ι fun i j => TransGen (WaitsOn t) j i := ⟨fun _ _ _ h h' => h'.trans h⟩
  have hirrefl : Std.Irrefl fun i j => TransGen (WaitsOn t) j i := ⟨fun i => ha i⟩
  exact Finite.wellFounded_of_trans_of_irrefl _

/-- **Without cycles somebody is ready** as long as anybody is there. -/
theorem Acyclic.exists_ready [Finite ι] (ha : Acyclic t) (hs : Sound t) {i : ι} (hi : t i ≠ none) :
    ∃ j, t j = some .ready := by
  induction i using ha.wellFounded.induction with
  | _ i ih =>
      match h : t i with
      | none => exact absurd h hi
      | some .ready => exact ⟨i, h⟩
      | some (.waiting d) => exact ih d (.single h) (hs i d h)

end Cycles

/-! ### Seniority -/

section Seniority

open Relation

variable {t t' : Table ι} {m : Move ι}

/-- The time, when the process of each slot was born, and the slots each process has filled. -/
structure Seniority (ι : Type*) where
  clock : Nat
  born : ι → Nat
  offspring : ι → List ι

/-- The record at the start. -/
def Seniority.start : Seniority ι := ⟨0, fun _ => 0, fun _ => []⟩

/-- The record after a step from `t` to `t'`, in which `fork.1` has created `fork.2`. -/
def Seniority.record [DecidableEq ι] (l : Seniority ι) (t t' : Table ι) (fork : Option (ι × ι)) :
    Seniority ι where
  clock := l.clock + 1
  born i := if t i = none ∧ t' i ≠ none then l.clock + 1 else l.born i
  offspring i :=
    if t i = none ∧ t' i ≠ none then []
    else match fork with
      | some (p, c) => if i = p then c :: l.offspring i else l.offspring i
      | none => l.offspring i

/-- Who is in a slot that a process has filled is younger than the process, and so is the process
that one waits for. -/
structure Seniority.Ok (l : Seniority ι) (t : Table ι) : Prop where
  past : ∀ i, l.born i ≤ l.clock
  younger : ∀ p c, t p ≠ none → c ∈ l.offspring p → t c ≠ none → l.born p < l.born c
  waits : ∀ i d, t i = some (.waiting d) → l.born i < l.born d

/-- A process has filled the slot of its child. -/
theorem Seniority.record_fork [DecidableEq ι] {l : Seniority ι} {p c : ι} (hp : t p ≠ none) :
    c ∈ (l.record t t' (some (p, c))).offspring p := by
  simp [Seniority.record, hp]

/-- A process that goes on keeps the slots it has filled. -/
theorem Seniority.mem_record [DecidableEq ι] {l : Seniority ι} {fork : Option (ι × ι)} {p c : ι}
    (hp : t p ≠ none) (hc : c ∈ l.offspring p) : c ∈ (l.record t t' fork).offspring p := by
  simp only [Seniority.record, hp, false_and, if_false]
  split
  · split
    · exact List.mem_cons_of_mem _ hc
    · exact hc
  · exact hc

/-- A step in which nobody starts to wait for a slot it has not filled. -/
theorem Seniority.Ok.move [DecidableEq ι] {l : Seniority ι} {fork : Option (ι × ι)} (h : l.Ok t)
    (hs : Sound t) (hl : m.Legal t) (hfork : ∀ p c, fork = some (p, c) → t c = none)
    (hwait : ∀ i d, m = .wait i d → d ∈ l.offspring i) :
    (l.record t (m.apply t) fork).Ok (m.apply t) := by
  have hborn : ∀ i, t i ≠ none → (l.record t (m.apply t) fork).born i = l.born i := fun i hi =>
    if_neg fun e => hi e.1
  have hlive : ∀ i d, m = .wait i d → t i ≠ none ∧ t d ≠ none := by
    rintro i d rfl
    exact ⟨by simp [hl.1], hl.2⟩
  refine ⟨fun i => ?_, fun p c hp hc hc' => ?_, fun i d hw => ?_⟩
  · have := h.past i
    simp only [record]
    split <;> omega
  · by_cases hnew : t p = none
    · -- a process that has just been born has filled nothing
      simp only [record] at hc
      rw [if_pos ⟨hnew, hp⟩] at hc
      cases hc
    rw [hborn p hnew]
    by_cases hcnew : t c = none
    · have := h.past p
      simp only [record]
      rw [if_pos ⟨hcnew, hc'⟩]
      omega
    · rw [hborn c hcnew]
      refine h.younger p c hnew ?_ hcnew
      simp only [record] at hc
      rw [if_neg fun e => hnew e.1] at hc
      rcases fork with _ | ⟨q, x⟩
      · exact hc
      · dsimp only at hc
        split at hc
        · rcases List.mem_cons.mp hc with rfl | hc
          · exact absurd (hfork q c rfl) hcnew
          · exact hc
        · exact hc
  · rcases waiting_of_move hl hw with hold | hnew
    · have hi : t i ≠ none := by simp [hold]
      rw [hborn i hi, hborn d (hs i d hold)]
      exact h.waits i d hold
    · obtain ⟨hi, hd⟩ := hlive i d hnew
      rw [hborn i hi, hborn d hd]
      exact h.younger i d hi (hwait i d hnew) hd

/-- **Nobody waits for an older process**, so nobody waits for itself through others. -/
theorem Seniority.Ok.acyclic {l : Seniority ι} (h : l.Ok t) : Acyclic t := by
  have hlt : ∀ i j, TransGen (WaitsOn t) i j → l.born i < l.born j := by
    intro i j hij
    induction hij with
    | single hw => exact h.waits _ _ hw
    | tail _ hw ih => exact ih.trans (h.waits _ _ hw)
  exact fun i hi => lt_irrefl _ (hlt i i hi)

end Seniority

end Arunos
