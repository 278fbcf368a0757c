import Arunos.Lib.String
import Arunos.Support.Runs

/-!
# Lib — Strtok — the tokenizer of `lib/string.c`

A call of `strtok` works on the array of the string it splits and on the static variable `last`,
a pointer into that array or NULL.  Pointers are indices, and reading or writing outside the array
is a fault.

The tokens are the maximal runs of the string (`runs`).  After any number of calls the tokens not
yet returned are the runs of the part from `last` on, which is as it was (`Splitting`); a call
takes the first of them.
-/

namespace Arunos

/-- A loop `while (*p != '\0' && test(*p)) p++`: how far it moves the pointer. -/
def scanWhile (test : UInt8 → Bool) : List UInt8 → Option Nat
  | [] => none
  | c :: array => if c ≠ 0 ∧ test c then (scanWhile test array).map (· + 1) else some 0

/-- The array that is split, and `last`. -/
structure Strtok where
  text : List UInt8
  last : Option Nat
  deriving DecidableEq

/-- `strtok`, from `token = last` on. -/
def strtokFrom (text : List UInt8) (last : Nat) (delimiters : List UInt8) :
    Option (Option Nat × Strtok) := do
  -- skip leading delimiters
  let token := last + (← scanWhile (fun c => strchr delimiters c ≠ none) (text.drop last))
  if (← text[token]?) = 0 then return (none, ⟨text, none⟩)
  else
    -- scan to find where the token ends
    let last := token + (← scanWhile (fun c => strchr delimiters c = none) (text.drop token))
    if (← text[last]?) ≠ 0 then return (some token, ⟨text.set last 0, some (last + 1)⟩)
    else return (some token, ⟨text, none⟩)

/-- `strtok(str, delimiters)`. -/
def strtok (s : Strtok) (str : Option Nat) (delimiters : List UInt8) :
    Option (Option Nat × Strtok) :=
  match str.or s.last with
  | none => some (none, ⟨s.text, none⟩)
  | some last => strtokFrom s.text last delimiters

/-- The `k`-th call, from 0, of `strtok(s, d)`, `strtok(NULL, d)`, …: what it returns and leaves. -/
def strtokCall (s : Strtok) (delimiters : List UInt8) : Nat → Option (Option Nat × Strtok)
  | 0 => strtok s (some 0) delimiters
  | k + 1 => do
      let (_, s) ← strtokCall s delimiters k
      strtok s none delimiters

variable {str rest delimiters : List UInt8} {c : UInt8} {s : Strtok} {k y : Nat}

/-! ### The scans -/

theorem scanWhile_append {test : UInt8 → Bool} {w : List UInt8} (hw : ∀ c ∈ w, c ≠ 0 ∧ test c)
    (hc : c = 0 ∨ ¬ test c) : scanWhile test (w ++ c :: rest) = some w.length := by
  induction w with
  | nil => exact if_neg fun h => hc.elim h.1 fun h' => h' h.2
  | cons d w ih =>
      rw [List.cons_append, scanWhile, if_pos (hw d List.mem_cons_self),
        ih fun e he => hw e (List.mem_cons_of_mem _ he)]
      rfl

theorem drop_add_of_drop {text a b : List UInt8} (h : text.drop y = a ++ b) :
    text.drop (y + a.length) = b := by
  rw [← List.drop_drop, h, List.drop_left]

theorem getElem?_of_drop {text a b : List UInt8} (h : text.drop y = a ++ c :: b) :
    text[y + a.length]? = some c := by
  rw [← List.getElem?_drop, h, List.getElem?_append_right le_rfl, Nat.sub_self]
  rfl

/-! ### One call -/

/-- The separators of a string that is split. -/
def isDelimiter (delimiters : List UInt8) (c : UInt8) : Bool := c ∈ delimiters

theorem isDelimiter_iff : isDelimiter delimiters c ↔ c ∈ delimiters := decide_eq_true_iff

/-- The test of the first scan. -/
theorem strchr_isDelimiter (hc : c ≠ 0) :
    decide (strchr delimiters c ≠ none) = isDelimiter delimiters c :=
  decide_eq_decide.mpr (strchr_ne_none.trans (or_iff_left hc))

/-- The test of the second scan. -/
theorem strchr_not_isDelimiter (hc : c ≠ 0) :
    decide (strchr delimiters c = none) = !isDelimiter delimiters c := by
  rw [← strchr_isDelimiter hc]
  simp

/-- The first scan stops at the first character that is no delimiter. -/
theorem scan_gap (rest : List UInt8) {gap : List UInt8} (hzero : 0 ∉ gap)
    (hgap : ∀ c ∈ gap, isDelimiter delimiters c) (hc : c = 0 ∨ ¬ isDelimiter delimiters c) :
    scanWhile (fun c => strchr delimiters c ≠ none) (gap ++ c :: rest) = some gap.length := by
  refine scanWhile_append (fun d hd => ?_) ?_
  · have hd₀ : d ≠ 0 := fun e => hzero (e ▸ hd)
    exact ⟨hd₀, (strchr_isDelimiter hd₀).trans (hgap d hd)⟩
  · refine (em (c = 0)).imp_right fun hc₀ => ?_
    rw [strchr_isDelimiter hc₀]
    exact hc.resolve_left hc₀

/-- The second scan stops at the first delimiter. -/
theorem scan_word (rest : List UInt8) {w : List UInt8} (hzero : 0 ∉ w)
    (hw : ∀ c ∈ w, ¬ isDelimiter delimiters c) (hc : c = 0 ∨ isDelimiter delimiters c) :
    scanWhile (fun c => strchr delimiters c = none) (w ++ c :: rest) = some w.length := by
  refine scanWhile_append (fun d hd => ?_) ?_
  · have hd₀ : d ≠ 0 := fun e => hzero (e ▸ hd)
    exact ⟨hd₀, (strchr_not_isDelimiter hd₀).trans (by simpa using hw d hd)⟩
  · refine (em (c = 0)).imp_right fun hc₀ => ?_
    rw [strchr_not_isDelimiter hc₀]
    simpa using hc.resolve_left hc₀

/-- A call that starts at `y` and finds delimiters alone. -/
theorem strtokFrom_empty {text gap : List UInt8} (htext : text.drop y = gap ++ 0 :: rest)
    (hzero : 0 ∉ gap) (hgap : ∀ c ∈ gap, isDelimiter delimiters c) :
    strtokFrom text y delimiters = some (none, ⟨text, none⟩) := by
  have hscan := scan_gap rest hzero hgap (.inl rfl)
  rw [← htext] at hscan
  simp only [strtokFrom, hscan, Option.bind_eq_bind, Option.bind_some, getElem?_of_drop htext]
  rfl

/-- A call that starts at `y` and finds the token `w`, which ends at the end of the string or at a
delimiter. -/
theorem strtokFrom_token {text gap w : List UInt8}
    (htext : text.drop y = gap ++ (w ++ c :: rest)) (hzero : 0 ∉ gap ++ w)
    (hgap : ∀ c ∈ gap, isDelimiter delimiters c) (hne : w ≠ [])
    (hw : ∀ c ∈ w, ¬ isDelimiter delimiters c) (hc : c = 0 ∨ isDelimiter delimiters c) :
    strtokFrom text y delimiters = some (some (y + gap.length), if c ≠ 0 then
      ⟨text.set (y + gap.length + w.length) 0, some (y + gap.length + w.length + 1)⟩
      else ⟨text, none⟩) := by
  have hzgap : 0 ∉ gap := fun h => hzero (List.mem_append_left _ h)
  have hzw : 0 ∉ w := fun h => hzero (List.mem_append_right _ h)
  have htoken := drop_add_of_drop htext
  obtain ⟨d, w', hdw⟩ := List.exists_cons_of_ne_nil hne
  have hmem : d ∈ w := by rw [hdw]; exact List.mem_cons_self
  have hd₀ : d ≠ 0 := fun e => hzw (e ▸ hmem)
  -- the first scan ends at the token's first character, the second one right after its last
  have htext' : text.drop y = gap ++ d :: (w' ++ c :: rest) := by rw [htext, hdw]; rfl
  have hscan := scan_gap (w' ++ c :: rest) hzgap hgap (.inr (hw d hmem))
  have hscan' := scan_word rest hzw hw hc
  rw [← htext'] at hscan
  rw [← htoken] at hscan'
  simp only [strtokFrom, hscan, Option.bind_eq_bind, Option.bind_some, getElem?_of_drop htext',
    hscan', getElem?_of_drop htoken]
  rw [if_neg hd₀]
  split <;> rfl

/-! ### A sequence of calls -/

/-- The tokens of a string, with the places they start at. -/
def tokens (delimiters str : List UInt8) : List (Nat × List UInt8) :=
  runs (isDelimiter delimiters) true 0 str

/-- `k` calls were made: the tokens from the `k`-th on are ahead, in a part of the string that is
as it was; those returned are strings in the array, and every byte that was changed is the delimiter
after one of them. -/
structure Splitting (delimiters str rest : List UInt8) (k : Nat) (s : Strtok) : Prop where
  finished : s.last = none → (tokens delimiters str).length ≤ k
  ahead : ∀ y ∈ s.last, s.text.drop y = str.drop y ++ 0 :: rest ∧
    runs (isDelimiter delimiters) true y (str.drop y) = (tokens delimiters str).drop k
  behind : ∀ y ∈ s.last, ∀ t ∈ (tokens delimiters str).take k, t.1 + t.2.length < y
  strings : ∀ t ∈ (tokens delimiters str).take k, HoldsString (s.text.drop t.1) t.2
  changed : ∀ x, s.text[x]? = (str ++ 0 :: rest)[x]? ∨ s.text[x]? = some 0 ∧
    (∃ t ∈ (tokens delimiters str).take k, x = t.1 + t.2.length) ∧
    ∃ c ∈ delimiters, str[x]? = some c

theorem Splitting.start : Splitting delimiters str rest 0 ⟨str ++ 0 :: rest, some 0⟩ := by
  refine ⟨fun h => absurd h (by simp), ?_, by simp, by simp, fun x => .inl rfl⟩
  rintro y hy
  obtain rfl : 0 = y := by simpa using hy
  exact ⟨rfl, rfl⟩

/-- The calls are over: more of them change nothing. -/
theorem Splitting.finish (h : Splitting delimiters str rest k s)
    (hk : (tokens delimiters str).length ≤ k) :
    Splitting delimiters str rest (k + 1) ⟨s.text, none⟩ := by
  have htake : (tokens delimiters str).take (k + 1) = (tokens delimiters str).take k := by
    rw [List.take_of_length_le hk, List.take_of_length_le (by omega)]
  refine ⟨fun _ => by omega, by simp, by simp, ?_, ?_⟩
  · rw [htake]
    exact h.strings
  · rw [htake]
    exact h.changed

/-- A later cut leaves a string before it alone. -/
theorem HoldsString.set {array w : List UInt8} {i x : Nat} (h : HoldsString (array.drop i) w)
    (hx : i + w.length < x) : HoldsString ((array.set x 0).drop i) w := by
  obtain ⟨h₀, tail, ht⟩ := h
  have hm : x - i - w.length = x - i - (w.length + 1) + 1 := by omega
  refine ⟨h₀, tail.set (x - i - (w.length + 1)) 0, ?_⟩
  rw [List.drop_set, if_neg (by omega), ht, List.set_append_right _ _ (by omega), hm,
    List.set_cons_succ]

/-- Where a token is cut off, it becomes a string. -/
theorem holdsString_cut {array w tail : List UInt8} {i : Nat} (h : array.drop i = w ++ c :: tail)
    (hw : 0 ∉ w) : HoldsString ((array.set (i + w.length) 0).drop i) w := by
  refine ⟨hw, tail, ?_⟩
  rw [List.drop_set, if_neg (by omega), h, Nat.add_sub_cancel_left,
    List.set_append_right _ _ le_rfl, Nat.sub_self]
  rfl

variable {i : Nat} {w : List UInt8}

theorem take_tokens (htok : (tokens delimiters str)[k]? = some (i, w)) :
    (tokens delimiters str).take (k + 1) = (tokens delimiters str).take k ++ [(i, w)] := by
  rw [List.take_add_one, htok]
  rfl

/-- What holds of the tokens returned before and of this one. -/
theorem forall_take_tokens {P : Nat × List UInt8 → Prop}
    (htok : (tokens delimiters str)[k]? = some (i, w))
    (h : ∀ t ∈ (tokens delimiters str).take k, P t) (hw : P (i, w)) :
    ∀ t ∈ (tokens delimiters str).take (k + 1), P t := by
  rw [take_tokens htok]
  exact List.forall_mem_append.mpr ⟨h, List.forall_mem_singleton.mpr hw⟩

theorem exists_take_tokens {P : Nat × List UInt8 → Prop}
    (h : ∃ t ∈ (tokens delimiters str).take k, P t) :
    ∃ t ∈ (tokens delimiters str).take (k + 1), P t := by
  obtain ⟨t, ht, hP⟩ := h
  exact ⟨t, List.take_subset_take_left _ (Nat.le_succ k) ht, hP⟩

/-- The last token, which ends at the end of the string. -/
theorem Splitting.final (h : Splitting delimiters str rest k s)
    (htok : (tokens delimiters str)[k]? = some (i, w))
    (hend : (tokens delimiters str).length ≤ k + 1) (hw : HoldsString (s.text.drop i) w) :
    Splitting delimiters str rest (k + 1) ⟨s.text, none⟩ := by
  refine ⟨fun _ => hend, by simp, by simp, forall_take_tokens htok h.strings hw,
    fun x => (h.changed x).imp_right ?_⟩
  rintro ⟨hx, ht, hc⟩
  exact ⟨hx, exists_take_tokens ht, hc⟩

/-- A token that a delimiter follows, which is cut off there. -/
theorem Splitting.cut (h : Splitting delimiters str rest k s)
    (htok : (tokens delimiters str)[k]? = some (i, w))
    (hbehind : ∀ t ∈ (tokens delimiters str).take k, t.1 + t.2.length < i + w.length)
    (hw : 0 ∉ w) {tail : List UInt8} (htext : s.text.drop i = w ++ c :: tail)
    (hc : c ∈ delimiters) (hstr : str[i + w.length]? = some c)
    (htail : tail = str.drop (i + w.length + 1) ++ 0 :: rest)
    (hahead : runs (isDelimiter delimiters) true (i + w.length + 1)
      (str.drop (i + w.length + 1)) = (tokens delimiters str).drop (k + 1)) :
    Splitting delimiters str rest (k + 1)
      ⟨s.text.set (i + w.length) 0, some (i + w.length + 1)⟩ := by
  have hlt : i + w.length < s.text.length :=
    (List.getElem?_eq_some_iff.mp (getElem?_of_drop htext)).1
  refine ⟨fun e => absurd e (by simp), ?_, ?_, ?_, fun x => ?_⟩
  · rintro y hy
    obtain rfl : i + w.length + 1 = y := by simpa using hy
    refine ⟨?_, hahead⟩
    have hsplit : s.text.drop i = (w ++ [c]) ++ tail := by
      rw [htext, List.append_assoc]
      rfl
    have hdrop := drop_add_of_drop hsplit
    rw [List.drop_set, if_pos (by omega), ← htail, ← hdrop, List.length_append]
    rfl
  · rintro y hy
    obtain rfl : i + w.length + 1 = y := by simpa using hy
    exact forall_take_tokens htok (fun t ht => Nat.lt_succ_of_lt (hbehind t ht))
      (Nat.lt_succ_self _)
  · exact forall_take_tokens htok (fun t ht => (h.strings t ht).set (hbehind t ht))
      (holdsString_cut htext hw)
  · by_cases hx : x = i + w.length
    · subst hx
      have hmem : (i, w) ∈ (tokens delimiters str).take (k + 1) := by
        rw [take_tokens htok]
        exact List.mem_append_right _ (List.mem_singleton_self _)
      exact .inr ⟨List.getElem?_set_self hlt, ⟨(i, w), hmem, rfl⟩, c, hc, hstr⟩
    · rw [List.getElem?_set_ne (Ne.symm hx)]
      refine (h.changed x).imp_right ?_
      rintro ⟨hx', ht, hd⟩
      exact ⟨hx', exists_take_tokens ht, hd⟩

/-- A call returns the next token. -/
theorem Splitting.step (hstr : 0 ∉ str) (h : Splitting delimiters str rest k s) :
    ∃ s', strtok s none delimiters = some ((tokens delimiters str)[k]?.map Prod.fst, s') ∧
      Splitting delimiters str rest (k + 1) s' := by
  cases hlast : s.last with
  | none =>
      have hk := h.finished hlast
      refine ⟨⟨s.text, none⟩, ?_, h.finish hk⟩
      rw [strtok, Option.none_or, hlast, List.getElem?_eq_none hk]
      rfl
  | some y =>
      obtain ⟨htext, hruns⟩ := h.ahead y hlast
      have hzero : 0 ∉ str.drop y := fun hm => hstr (List.mem_of_mem_drop hm)
      rw [show strtok s none delimiters = strtokFrom s.text y delimiters by
        rw [strtok, Option.none_or, hlast]]
      rcases runs_cases (isDelimiter delimiters) y (str.drop y) with
        ⟨hgap, hnil⟩ | ⟨gap, w, post, hsplit, hgap, hne, hw, hpost, hcons⟩
      · have hk : (tokens delimiters str).length ≤ k :=
          List.drop_eq_nil_iff.mp (hruns.symm.trans hnil)
        refine ⟨_, ?_, h.finish hk⟩
        rw [strtokFrom_empty htext hzero hgap, List.getElem?_eq_none hk]
        rfl
      · -- the token `w` is next
        have hdrop := hruns.symm.trans hcons
        have htok : (tokens delimiters str)[k]? = some (y + gap.length, w) := by
          have := congrArg (·[0]?) hdrop
          simpa using this
        have hahead : (tokens delimiters str).drop (k + 1) =
            runs (isDelimiter delimiters) true (y + gap.length + w.length) post := by
          rw [← List.tail_drop, hdrop, List.tail_cons]
        rw [hsplit] at hzero htext
        have hzero' : 0 ∉ gap ++ w := fun hm => hzero (by
          rw [← List.append_assoc]
          exact List.mem_append_left _ hm)
        have hzw : 0 ∉ w := fun hm => hzero' (List.mem_append_right _ hm)
        rw [List.append_assoc, List.append_assoc] at htext
        have htext' := drop_add_of_drop htext
        rw [htok]
        cases post with
        | nil =>
            refine ⟨_, strtokFrom_token htext hzero' hgap hne hw (.inl rfl), ?_⟩
            exact h.final htok (List.drop_eq_nil_iff.mp hahead) ⟨hzw, rest, htext'⟩
        | cons c post =>
            have hd := hpost c rfl
            have hc₀ : c ≠ 0 := fun e => hzero (by simp [e])
            have hsplit' := drop_add_of_drop hsplit
            refine ⟨_, strtokFrom_token htext hzero' hgap hne hw (.inr hd), ?_⟩
            rw [if_pos hc₀]
            have hpost' : str.drop (y + gap.length + w.length + 1) = post := by
              rw [← List.drop_drop, drop_add_of_drop hsplit']
              rfl
            refine h.cut htok (fun t ht => ?_) hzw htext' (isDelimiter_iff.mp hd)
              (getElem?_of_drop hsplit') ?_ ?_
            · have := h.behind y hlast t ht
              omega
            · rw [hpost']
              rfl
            · rw [hpost', hahead, runs, if_pos hd]

/-- Each call of the sequence returns the token of its number, or NULL if there is none. -/
theorem strtokCall_splitting (delimiters : List UInt8) (hstr : 0 ∉ str) (rest : List UInt8)
    (last : Option Nat) (k : Nat) :
    ∃ s', strtokCall ⟨str ++ 0 :: rest, last⟩ delimiters k =
        some ((tokens delimiters str)[k]?.map Prod.fst, s') ∧
      Splitting delimiters str rest (k + 1) s' := by
  induction k with
  | zero => exact Splitting.start.step hstr
  | succ k ih =>
      obtain ⟨s, hcall, hs⟩ := ih
      obtain ⟨s', hstep, hs'⟩ := hs.step hstr
      refine ⟨s', ?_, hs'⟩
      rw [strtokCall, hcall]
      exact hstep

end Arunos
