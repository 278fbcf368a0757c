import Mathlib.Data.List.TakeWhile

/-!
# Support — Runs — the maximal runs of a list between separators

A run is a part of a list without separators that cannot be made longer on either side.
`runs p true 0 l` lists the runs of `l` with the places they start at, from left to right; the flag
says whether a run may start at the head, which it may not right after a letter of a run.
-/

namespace Arunos

variable {α : Type} {p : α → Bool} {l w gap rest : List α} {c : α} {fresh : Bool} {i j k : Nat}

/-- `w` stands at `i` in `l`, has no separator in it, and is bounded by separators or by the ends of
`l`. -/
structure MaximalRun (p : α → Bool) (l : List α) (i : Nat) (w : List α) : Prop where
  ne_nil : w ≠ []
  isPrefix : w <+: l.drop i
  letters : ∀ c ∈ w, ¬ p c
  before : ∀ k, k + 1 = i → ∀ c ∈ l[k]?, p c
  after : ∀ c ∈ l[i + w.length]?, p c

/-- The runs of a list whose head stands at `start`. -/
def runs (p : α → Bool) : Bool → Nat → List α → List (Nat × List α)
  | _, _, [] => []
  | fresh, start, c :: l =>
      if p c then runs p true (start + 1) l
      else if fresh then (start, (c :: l).takeWhile (!p ·)) :: runs p false (start + 1) l
      else runs p false (start + 1) l

/-! ### What the list of runs is -/

/-- A part without separators, up to a separator or the end, is what `takeWhile` takes. -/
theorem eq_takeWhile_iff :
    w = l.takeWhile (!p ·) ↔ w <+: l ∧ (∀ c ∈ w, ¬ p c) ∧ ∀ c ∈ l[w.length]?, p c := by
  induction l generalizing w with
  | nil => simp +contextual
  | cons d l ih =>
      cases w with
      | nil => by_cases hd : p d <;> simp [hd]
      | cons c w =>
          by_cases hd : p d
          · simp only [List.takeWhile_cons, hd, Bool.not_true, Bool.false_eq_true, if_false,
              List.cons_prefix_cons, List.mem_cons, reduceCtorEq, false_iff]
            rintro ⟨⟨rfl, -⟩, hw, -⟩
            exact hw _ (.inl rfl) hd
          · simp only [List.takeWhile_cons, hd, Bool.not_false, if_true, List.cons.injEq, ih,
              List.cons_prefix_cons, List.forall_mem_cons, List.length_cons,
              List.getElem?_cons_succ]
            constructor
            · rintro ⟨rfl, hw⟩
              exact ⟨⟨rfl, hw.1⟩, ⟨hd, hw.2.1⟩, hw.2.2⟩
            · rintro ⟨⟨rfl, hw⟩, ⟨-, hw'⟩, hafter⟩
              exact ⟨rfl, hw, hw', hafter⟩

/-- A maximal run is what `takeWhile` gives from a place where no run goes on. -/
theorem maximalRun_iff : MaximalRun p l i w ↔
    w = (l.drop i).takeWhile (!p ·) ∧ w ≠ [] ∧ ∀ k, k + 1 = i → ∀ c ∈ l[k]?, p c := by
  rw [eq_takeWhile_iff, List.getElem?_drop]
  constructor
  · rintro ⟨hne, hpre, hw, hbefore, hafter⟩
    exact ⟨⟨hpre, hw, hafter⟩, hne, hbefore⟩
  · rintro ⟨⟨hpre, hw, hafter⟩, hne, hbefore⟩
    exact ⟨hne, hpre, hw, hbefore, hafter⟩

/-- A run of `l` starts at `k`, where `fresh` says whether one may start at the head. -/
structure RunStarts (p : α → Bool) (fresh : Bool) (l : List α) (k : Nat) (w : List α) : Prop where
  letters : w = (l.drop k).takeWhile (!p ·)
  ne_nil : w ≠ []
  head : k = 0 → fresh
  before : ∀ m, m + 1 = k → ∀ c ∈ l[m]?, p c

theorem maximalRun_iff_runStarts : MaximalRun p l i w ↔ RunStarts p true l i w := by
  rw [maximalRun_iff]
  exact ⟨fun ⟨h, hne, hb⟩ => ⟨h, hne, fun _ => rfl, hb⟩, fun h => ⟨h.letters, h.ne_nil, h.before⟩⟩

theorem runStarts_zero : RunStarts p fresh (c :: l) 0 w ↔
    fresh ∧ ¬ p c ∧ w = (c :: l).takeWhile (!p ·) := by
  constructor
  · rintro ⟨rfl, hne, hfresh, -⟩
    refine ⟨hfresh rfl, fun hc => hne ?_, rfl⟩
    simp [hc]
  · rintro ⟨hfresh, hc, rfl⟩
    exact ⟨rfl, by simp [hc], fun _ => hfresh, fun _ h => absurd h (Nat.succ_ne_zero _)⟩

/-- A run that starts later starts in the rest of the list. -/
theorem runStarts_succ : RunStarts p fresh (c :: l) (k + 1) w ↔ RunStarts p (p c) l k w := by
  constructor
  · rintro ⟨h, hne, -, hb⟩
    refine ⟨h, hne, fun hk => hb 0 (by omega) c rfl, fun m hm => hb (m + 1) (by omega)⟩
  · rintro ⟨h, hne, hhead, hb⟩
    refine ⟨h, hne, fun hk => absurd hk (Nat.succ_ne_zero _), fun m hm d hd => ?_⟩
    cases m with
    | zero =>
        obtain rfl : c = d := by simpa using hd
        exact hhead (by omega)
    | succ m => exact hb m (by omega) d hd

/-- The runs found are those that start in the list, by induction on it. -/
theorem mem_runs_iff :
    (j, w) ∈ runs p fresh i l ↔ ∃ k, j = i + k ∧ RunStarts p fresh l k w := by
  induction l generalizing fresh i with
  | nil =>
      refine ⟨fun h => absurd h List.not_mem_nil, ?_⟩
      rintro ⟨k, -, h⟩
      exact absurd h.letters (by simpa using h.ne_nil)
  | cons c l ih =>
      -- a run starts at the head or in the rest
      have hsplit : (∃ k, j = i + k ∧ RunStarts p fresh (c :: l) k w) ↔
          (j = i ∧ fresh ∧ ¬ p c ∧ w = (c :: l).takeWhile (!p ·)) ∨
            ∃ k, j = i + 1 + k ∧ RunStarts p (p c) l k w := by
        rw [← Nat.or_exists_add_one, runStarts_zero]
        simp only [runStarts_succ, Nat.add_zero, Nat.add_assoc, Nat.add_comm 1]
      rw [hsplit, runs]
      by_cases hc : p c
      · simp [hc, ih]
      · cases fresh <;> simp [hc, ih]

/-- The runs found from the beginning are the maximal runs. -/
theorem mem_runs : (i, w) ∈ runs p true 0 l ↔ MaximalRun p l i w := by
  rw [mem_runs_iff, maximalRun_iff_runStarts]
  simp

/-- The runs are found from left to right. -/
theorem runs_increasing : (runs p fresh i l).Pairwise fun t u => t.1 < u.1 := by
  induction l generalizing fresh i with
  | nil => exact .nil
  | cons c l ih =>
      rw [runs]
      split_ifs
      · exact ih
      · refine .cons ?_ ih
        rintro ⟨j, w⟩ hmem
        obtain ⟨k, rfl, -⟩ := mem_runs_iff.mp hmem
        exact Nat.lt_of_lt_of_le (Nat.lt_succ_self i) (Nat.le_add_right _ _)
      · exact ih

/-! ### Taking the first run off -/

theorem runs_gap (h : ∀ c ∈ gap, p c) :
    runs p true i (gap ++ rest) = runs p true (i + gap.length) rest := by
  induction gap generalizing i with
  | nil => rfl
  | cons c gap ih =>
      rw [List.cons_append, runs, if_pos (h c List.mem_cons_self),
        ih fun d hd => h d (List.mem_cons_of_mem _ hd), List.length_cons]
      congr 1
      omega

/-- Inside a run nothing starts. -/
theorem runs_inside (h : ∀ c ∈ w, ¬ p c) (hrest : ∀ c ∈ rest.head?, p c) :
    runs p false i (w ++ rest) = runs p true (i + w.length) rest := by
  induction w generalizing i with
  | nil =>
      cases rest with
      | nil => rfl
      | cons c rest =>
          have hc := hrest c rfl
          rw [List.nil_append, runs, runs, if_pos hc, if_pos hc]
          rfl
  | cons c w ih =>
      rw [List.cons_append, runs, if_neg (h c List.mem_cons_self), if_neg (by decide),
        ih fun d hd => h d (List.mem_cons_of_mem _ hd), List.length_cons]
      congr 1
      omega

/-- A word at the head, up to a separator or the end, is the first run. -/
theorem runs_word (hne : w ≠ []) (h : ∀ c ∈ w, ¬ p c) (hrest : ∀ c ∈ rest.head?, p c) :
    runs p true i (w ++ rest) = (i, w) :: runs p true (i + w.length) rest := by
  have htake : w = (w ++ rest).takeWhile (!p ·) := by
    refine eq_takeWhile_iff.mpr ⟨List.prefix_append _ _, h, ?_⟩
    rwa [List.getElem?_append_right le_rfl, Nat.sub_self, ← List.head?_eq_getElem?]
  obtain ⟨c, w', rfl⟩ := List.exists_cons_of_ne_nil hne
  rw [List.cons_append] at htake ⊢
  rw [runs, if_neg (h c List.mem_cons_self), if_pos rfl, ← htake,
    runs_inside (fun d hd => h d (List.mem_cons_of_mem _ hd)) hrest, List.length_cons,
    Nat.add_right_comm, Nat.add_assoc]

/-- A list is separators alone, or separators and then its first run. -/
theorem runs_cases (p : α → Bool) (i : Nat) (l : List α) :
    ((∀ c ∈ l, p c) ∧ runs p true i l = []) ∨
      ∃ gap w rest, l = gap ++ (w ++ rest) ∧ (∀ c ∈ gap, p c) ∧ w ≠ [] ∧ (∀ c ∈ w, ¬ p c) ∧
        (∀ c ∈ rest.head?, p c) ∧
        runs p true i l = (i + gap.length, w) :: runs p true (i + gap.length + w.length) rest := by
  have hgap : ∀ c ∈ l.takeWhile p, p c := fun c hc => List.mem_takeWhile_imp hc
  have hl : l.takeWhile p ++ l.dropWhile p = l := List.takeWhile_append_dropWhile
  by_cases hd : l.dropWhile p = []
  · rw [hd, List.append_nil] at hl
    rw [hl] at hgap
    have hruns : runs p true i (l ++ []) = [] := runs_gap hgap
    exact .inl ⟨hgap, by rwa [List.append_nil] at hruns⟩
  · set d := l.dropWhile p with hdef
    have hw : ∀ c ∈ d.takeWhile (!p ·), ¬ p c := fun c hc => by
      simpa using List.mem_takeWhile_imp hc
    have hrest : ∀ c ∈ (d.dropWhile (!p ·)).head?, p c := by
      intro c hc
      have := List.head?_dropWhile_not (!p ·) d
      rw [hc] at this
      simpa using this
    have hne : d.takeWhile (!p ·) ≠ [] := by
      obtain ⟨c, d', hcd⟩ := List.exists_cons_of_ne_nil hd
      have hc := List.head?_dropWhile_not p l
      rw [← hdef, hcd] at hc
      rw [hcd, List.takeWhile_cons]
      simp only [List.head?_cons] at hc
      simp [hc]
    have hsplit : d.takeWhile (!p ·) ++ d.dropWhile (!p ·) = d :=
      List.takeWhile_append_dropWhile
    refine .inr ⟨_, _, _, ?_, hgap, hne, hw, hrest, ?_⟩
    · rw [hsplit, hl]
    · rw [← runs_word hne hw hrest, hsplit, ← runs_gap hgap, hl]

end Arunos
