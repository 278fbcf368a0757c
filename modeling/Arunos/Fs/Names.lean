import Arunos.Fs.Fat

/-!
# Fs — Names — 8.3 names, parsed and rendered

A name is `BASE` or `BASE.EXT`; on the disk it is a key of 11 bytes, both parts padded with spaces.
`short_name` goes from the name to the key in one loop, whose `limit` doubles as the flag for a dot
seen; `fat_next` goes back in two loops that stop at a space.

`shortName_exact` reads the shape of the accepted names and their keys off the first loop.
`renderName_key` says what the second makes of a key, so that the two are inverse to one another on
names without lower-case letters (`shortName_renderName`, `renderName_shortName`).
-/

namespace Arunos

variable {base ext name key pre : List UInt8} {ch : UInt8}

/-! ### The shape of a name -/

/-- The upper-case form of a letter. -/
def upperCase (ch : UInt8) : UInt8 := if 97 ≤ ch ∧ ch ≤ 122 then ch - 32 else ch

/-- A character of a name: in 33..126, no dot and none of `illegalChars`. -/
def Legal (ch : UInt8) : Prop := 33 ≤ ch ∧ ch ≤ 126 ∧ ch ≠ 46 ∧ ch ∉ illegalChars

instance : DecidablePred Legal := fun _ => inferInstanceAs (Decidable (_ ∧ _))

/-- The two parts of an 8.3 name; the extension may be missing. -/
structure Parts (base ext : List UInt8) : Prop where
  base_pos : 1 ≤ base.length
  base_le : base.length ≤ 8
  ext_le : ext.length ≤ 3
  base_legal : ∀ ch ∈ base, Legal ch
  ext_legal : ∀ ch ∈ ext, Legal ch

/-- `BASE`, or `BASE.EXT` if there is an extension. -/
def joinName (base ext : List UInt8) : List UInt8 := base ++ if ext = [] then [] else 46 :: ext

/-- Padding with spaces. -/
def pad (n : Nat) (part : List UInt8) : List UInt8 := part ++ List.replicate (n - part.length) 32

/-- The 11 bytes on the disk. -/
def keyOf (base ext : List UInt8) : List UInt8 :=
  pad 8 (base.map upperCase) ++ pad 3 (ext.map upperCase)

theorem Legal.ne_nul (h : Legal ch) : ch ≠ 0 := by
  rintro rfl
  exact absurd h.1 (by decide)

theorem Legal.ne_space (h : Legal ch) : ch ≠ 32 := by
  rintro rfl
  exact absurd h.1 (by decide)

/-- The characters that the loop stores. -/
theorem legal_iff (hn : ch ≠ 0) (hdot : ch ≠ 46) :
    Legal ch ↔ ¬ (ch ≤ 32 ∨ ch ≥ 127 ∨ strchr illegalChars ch ≠ none) := by
  have h₁ : 33 ≤ ch ↔ ¬ ch ≤ 32 := by
    rw [UInt8.le_iff_toNat_le, UInt8.le_iff_toNat_le]
    exact Nat.not_le.symm
  have h₂ : ch ≤ 126 ↔ ¬ ch ≥ 127 := by
    rw [ge_iff_le, UInt8.le_iff_toNat_le, UInt8.le_iff_toNat_le]
    exact Nat.lt_succ_iff.symm.trans Nat.not_le.symm
  rw [strchr_ne_none, Legal, h₁, h₂]
  simp only [hn, hdot, or_false, ne_eq, not_false_eq_true, true_and, not_or]

theorem length_pad {n : Nat} {part : List UInt8} (h : part.length ≤ n) :
    (pad n part).length = n := by
  simp only [pad, List.length_append, List.length_replicate]
  omega

/-- Storing the next character. -/
theorem pad_set {n : Nat} (h : pre.length < n) (ch : UInt8) :
    (pad n pre).set pre.length ch = pad n (pre ++ [ch]) := by
  obtain ⟨k, hk⟩ : ∃ k, n - pre.length = k + 1 := ⟨n - pre.length - 1, by omega⟩
  have hk' : n - (pre ++ [ch]).length = k := by
    simp only [List.length_append, List.length_singleton]
    omega
  rw [pad, pad, hk, hk', List.set_append_right _ _ le_rfl, Nat.sub_self, List.replicate_succ,
    List.set_cons_zero, List.append_assoc, List.singleton_append]

/-- The key with the base alone is padded up to the extension. -/
theorem pad_pad {m n : Nat} (hm : pre.length ≤ m) (hn : m ≤ n) : pad n (pad m pre) = pad n pre := by
  rw [pad, length_pad hm, pad, pad, List.append_assoc, List.replicate_append_replicate]
  congr 2
  omega

theorem pad_append {m : Nat} (n : Nat) {part : List UInt8} (h : pre.length = m) :
    pad (m + n) (pre ++ part) = pre ++ pad n part := by
  rw [pad, pad, List.append_assoc, List.length_append, h, Nat.add_sub_add_left]

/-! ### The loop of `short_name` -/

/-- The loop stores a legal character as long as there is room, in upper case. -/
theorem shortNameLoop_legal {limit : Nat} (h : Legal ch) (hpos : pre.length < limit)
    (hlimit : limit ≤ 11) (rest : List UInt8) :
    shortNameLoop (ch :: rest) pre.length limit (pad 11 pre) =
      shortNameLoop rest (pre ++ [upperCase ch]).length limit (pad 11 (pre ++ [upperCase ch])) := by
  have hok := (legal_iff h.ne_nul h.2.2.1).mp h
  rw [shortNameLoop, if_neg h.ne_nul, if_neg h.2.2.1, if_neg, List.length_append,
    List.length_singleton]
  · simp only [pad_set (hpos.trans_le hlimit), upperCase]
  · rintro (he | hbad)
    · exact absurd he hpos.ne
    · exact hok hbad

/-- It refuses every other character. -/
theorem shortNameLoop_illegal {limit : Nat} (hn : ch ≠ 0) (hdot : ch ≠ 46)
    (h : pre.length = limit ∨ ¬ Legal ch) (rest : List UInt8) :
    shortNameLoop (ch :: rest) pre.length limit key = none := by
  rw [shortNameLoop, if_neg hn, if_neg hdot, if_pos]
  rcases h with h | h
  · exact .inl h
  · rw [legal_iff hn hdot, not_not] at h
    exact .inr h

/-- After the dot: the rest of the string is the extension. -/
theorem shortNameLoop_ext (l : List UInt8) (h : pre.length ≤ 11) :
    shortNameLoop l pre.length 11 (pad 11 pre) = some key ↔
      (∀ ch ∈ cstring l, Legal ch) ∧ pre.length + (cstring l).length ≤ 11 ∧
        key = pad 11 (pre ++ (cstring l).map upperCase) := by
  induction l generalizing pre with
  | nil => simp [shortNameLoop, h, eq_comm]
  | cons ch rest ih =>
      by_cases hn : ch = 0
      · subst hn
        simp [shortNameLoop, h, eq_comm]
      rw [cstring_cons hn]
      by_cases hdot : ch = 46
      · subst hdot
        simp [shortNameLoop, Legal]
      by_cases hok : pre.length < 11 ∧ Legal ch
      · obtain ⟨hpos, hl⟩ := hok
        have hlen : (pre ++ [upperCase ch]).length = pre.length + 1 := List.length_append
        rw [shortNameLoop_legal hl hpos le_rfl, ih (by omega), hlen, List.length_cons,
          Nat.add_assoc, Nat.add_comm 1]
        simp only [List.forall_mem_cons, hl, true_and, List.map_cons, List.append_assoc,
          List.singleton_append]
      · rw [shortNameLoop_illegal hn hdot (by
          by_contra hc
          rw [not_or, not_not] at hc
          exact hok ⟨lt_of_le_of_ne h hc.1, hc.2⟩)]
        refine iff_of_false (by simp) ?_
        rintro ⟨hl, hlen, -⟩
        refine hok ⟨?_, hl ch List.mem_cons_self⟩
        simp only [List.length_cons] at hlen
        omega

/-- After the characters `pre` of the base, the rest of it is `base` and the extension is `ext`. -/
structure Continues (pre base ext key : List UInt8) : Prop where
  base_le : pre.length + base.length ≤ 8
  ext_le : ext.length ≤ 3
  base_legal : ∀ ch ∈ base, Legal ch
  ext_legal : ∀ ch ∈ ext, Legal ch
  nonempty : ext ≠ [] → pre ++ base ≠ []
  key : key = pad 8 (pre ++ base.map upperCase) ++ pad 3 (ext.map upperCase)

/-- The next character is the dot, or one of the base. -/
theorem joinName_eq_cons {t : List UInt8} (h : joinName base ext = ch :: t) :
    (base = [] ∧ ch = 46 ∧ ext = t ∧ ext ≠ []) ∨
      ∃ base', base = ch :: base' ∧ joinName base' ext = t := by
  cases base with
  | nil =>
      by_cases he : ext = []
      · simp [joinName, he] at h
      · simp only [joinName, List.nil_append, if_neg he, List.cons.injEq] at h
        exact .inl ⟨rfl, h.1.symm, h.2, he⟩
  | cons b base =>
      simp only [joinName, List.cons_append, List.cons.injEq] at h
      exact .inr ⟨base, by rw [h.1], h.2⟩

theorem joinName_eq_nil (h : joinName base ext = []) : base = [] ∧ ext = [] := by
  obtain ⟨rfl, he⟩ := List.append_eq_nil_iff.mp h
  refine ⟨rfl, ?_⟩
  by_contra hne
  rw [if_neg hne] at he
  cases he

/-- The string ends in the base. -/
theorem shortNameLoop_end (h : pre.length ≤ 8) :
    some (pad 11 pre) = some key ↔
      ∃ base ext, [] = joinName base ext ∧ Continues pre base ext key := by
  have hpad : pad 11 pre = pad 8 pre ++ pad 3 [] := by
    rw [← pad_append 3 (length_pad h), List.append_nil, pad_pad h (by decide)]
  constructor
  · intro hk
    obtain rfl := Option.some.inj hk
    exact ⟨[], [], rfl, ⟨h, Nat.zero_le _, by simp, by simp, by simp, by simpa using hpad⟩⟩
  · rintro ⟨base, ext, hj, hc⟩
    obtain ⟨rfl, rfl⟩ := joinName_eq_nil hj.symm
    rw [hc.key, hpad, List.map_nil, List.append_nil]

theorem headD_eq_nul (l : List UInt8) : l.headD 0 = 0 ↔ cstring l = [] := by
  cases l with
  | nil => simp
  | cons ch rest =>
      by_cases hn : ch = 0
      · simp [hn]
      · simp [cstring_cons hn, hn]

/-- The next character is a dot. -/
theorem shortNameLoop_dot (rest : List UInt8) (h : pre.length ≤ 8) :
    shortNameLoop (46 :: rest) pre.length 8 (pad 11 pre) = some key ↔
      ∃ base ext, 46 :: cstring rest = joinName base ext ∧ Continues pre base ext key := by
  have hsplit : pad 11 (pad 8 pre ++ (cstring rest).map upperCase) =
      pad 8 pre ++ pad 3 ((cstring rest).map upperCase) := pad_append 3 (length_pad h)
  have hrest : shortNameLoop rest (pad 8 pre).length 11 (pad 11 (pad 8 pre)) = some key ↔ _ :=
    shortNameLoop_ext rest (by rw [length_pad h]; decide)
  rw [length_pad h, pad_pad h (by decide), hsplit] at hrest
  rw [shortNameLoop, if_neg (by decide), if_pos rfl]
  constructor
  · intro hk
    split at hk
    · cases hk
    next hgo =>
      simp only [not_or, headD_eq_nul] at hgo
      obtain ⟨hpos, -, hne⟩ := hgo
      obtain ⟨hl, hlen, hkey⟩ := hrest.mp hk
      refine ⟨[], cstring rest, by simp [joinName, hne], ⟨h, by omega, by simp, hl, ?_, by simpa⟩⟩
      intro _ he
      exact hpos (by simpa using he)
  · rintro ⟨base, ext, hj, hc⟩
    obtain ⟨rfl, -, rfl, hne⟩ | ⟨base', rfl, -⟩ := joinName_eq_cons hj.symm
    · have hpos : pre ≠ [] := by simpa using hc.nonempty hne
      have hlen := hc.ext_le
      have hgo : ¬ (pre.length = 0 ∨ 8 = 11 ∨ rest.headD 0 = 0) := by
        rw [headD_eq_nul]
        simp [hpos, hne]
      rw [if_neg hgo]
      exact hrest.mpr ⟨hc.ext_legal, by omega, by simpa using hc.key⟩
    · exact absurd rfl (hc.base_legal 46 List.mem_cons_self).2.2.1

/-- Before the dot: the string is the rest of the base, and an extension or none. -/
theorem shortNameLoop_base (l : List UInt8) (h : pre.length ≤ 8) :
    shortNameLoop l pre.length 8 (pad 11 pre) = some key ↔
      ∃ base ext, cstring l = joinName base ext ∧ Continues pre base ext key := by
  induction l generalizing pre with
  | nil => exact shortNameLoop_end h
  | cons ch rest ih =>
      by_cases hn : ch = 0
      · subst hn
        exact shortNameLoop_end h
      rw [cstring_cons hn]
      by_cases hdot : ch = 46
      · subst hdot
        exact shortNameLoop_dot rest h
      have hlen : (pre ++ [upperCase ch]).length = pre.length + 1 := List.length_append
      by_cases hok : pre.length < 8 ∧ Legal ch
      · obtain ⟨hpos, hl⟩ := hok
        rw [shortNameLoop_legal hl hpos (by decide), ih (by omega)]
        constructor
        · rintro ⟨base, ext, hj, hc⟩
          have hle := hc.base_le
          refine ⟨ch :: base, ext, by rw [hj]; rfl, ⟨?_, hc.ext_le, ?_, hc.ext_legal, by simp, ?_⟩⟩
          · rw [List.length_cons]
            omega
          · exact List.forall_mem_cons.mpr ⟨hl, hc.base_legal⟩
          · simpa using hc.key
        · rintro ⟨base, ext, hj, hc⟩
          obtain ⟨-, he, -⟩ | ⟨base', rfl, hj'⟩ := joinName_eq_cons hj.symm
          · exact absurd he hdot
          have hle := hc.base_le
          rw [List.length_cons] at hle
          refine ⟨base', ext, hj'.symm, ⟨by omega, hc.ext_le, ?_, hc.ext_legal, by simp, ?_⟩⟩
          · exact (List.forall_mem_cons.mp hc.base_legal).2
          · simpa using hc.key
      · have hbad : pre.length = 8 ∨ ¬ Legal ch := by
          by_contra hc
          rw [not_or, not_not] at hc
          exact hok ⟨lt_of_le_of_ne h hc.1, hc.2⟩
        rw [shortNameLoop_illegal hn hdot hbad]
        refine iff_of_false (by simp) ?_
        rintro ⟨base, ext, hj, hc⟩
        obtain ⟨-, he, -⟩ | ⟨base', rfl, -⟩ := joinName_eq_cons hj.symm
        · exact hdot he
        · have hle := hc.base_le
          rw [List.length_cons] at hle
          exact hok ⟨by omega, hc.base_legal ch List.mem_cons_self⟩

/-- `short_name` accepts the names of two parts, and makes their key. -/
theorem shortName_eq_some : shortName (some name) = some key ↔
    ∃ base ext, Parts base ext ∧ cstring name = joinName base ext ∧ key = keyOf base ext := by
  have hloop : shortNameLoop name 0 8 (List.replicate 11 32) = some key ↔
      ∃ base ext, cstring name = joinName base ext ∧ Continues [] base ext key :=
    shortNameLoop_base name (show ([] : List UInt8).length ≤ 8 from Nat.zero_le 8)
  unfold shortName
  simp only [headD_eq_nul]
  constructor
  · intro h
    split at h
    · cases h
    next hne =>
      obtain ⟨base, ext, hj, hc⟩ := hloop.mp h
      refine ⟨base, ext, ⟨?_, ?_, hc.ext_le, hc.base_legal, hc.ext_legal⟩, hj, ?_⟩
      · refine List.length_pos_iff.mpr ?_
        rintro rfl
        by_cases he : ext = []
        · exact hne (by simp [hj, joinName, he])
        · exact hc.nonempty he rfl
      · simpa using hc.base_le
      · simpa [keyOf] using hc.key
  · rintro ⟨base, ext, hp, hj, rfl⟩
    have hne : base ≠ [] := List.length_pos_iff.mp hp.base_pos
    rw [if_neg (by simp [hj, joinName, hne])]
    refine hloop.mpr ⟨base, ext, hj, ⟨?_, hp.ext_le, hp.base_legal, hp.ext_legal, ?_, ?_⟩⟩
    · simpa using hp.base_le
    · simp [hne]
    · simp [keyOf]

/-! ### Upper case -/

theorem upperCase_upperCase (ch : UInt8) : upperCase (upperCase ch) = upperCase ch := by
  have hall : ∀ n < 256, upperCase (upperCase (UInt8.ofNat n)) = upperCase (UInt8.ofNat n) := by
    decide +kernel
  simpa using hall ch.toNat ch.toNat_lt

theorem Legal.upperCase (h : Legal ch) : Legal (Arunos.upperCase ch) := by
  have hall : ∀ n < 256, Legal (UInt8.ofNat n) → Legal (Arunos.upperCase (UInt8.ofNat n)) := by
    decide +kernel
  have hch := hall ch.toNat ch.toNat_lt
  rw [UInt8.ofNat_toNat] at hch
  exact hch h

theorem Parts.upperCase (h : Parts base ext) :
    Parts (base.map Arunos.upperCase) (ext.map Arunos.upperCase) := by
  refine ⟨by simpa using h.base_pos, by simpa using h.base_le, by simpa using h.ext_le, ?_, ?_⟩
  · exact List.forall_mem_map.mpr fun ch hch => (h.base_legal ch hch).upperCase
  · exact List.forall_mem_map.mpr fun ch hch => (h.ext_legal ch hch).upperCase

theorem map_upperCase_joinName (base ext : List UInt8) :
    (joinName base ext).map upperCase = joinName (base.map upperCase) (ext.map upperCase) := by
  have hdot : upperCase 46 = 46 := by decide
  by_cases he : ext = []
  · simp [joinName, he]
  · simp [joinName, he, hdot]

theorem keyOf_upperCase (base ext : List UInt8) :
    keyOf (base.map upperCase) (ext.map upperCase) = keyOf base ext := by
  simp [keyOf, Function.comp_def, upperCase_upperCase]

theorem Parts.cstring_joinName (h : Parts base ext) :
    cstring (joinName base ext) = joinName base ext := by
  refine cstring_of_notMem ?_
  intro hn
  rcases List.mem_append.mp hn with hn | hn
  · exact (h.base_legal 0 hn).ne_nul rfl
  · split at hn
    · cases hn
    · rcases List.mem_cons.mp hn with hn | hn
      · exact absurd hn (by decide)
      · exact (h.ext_legal 0 hn).ne_nul rfl

theorem Parts.shortName (h : Parts base ext) :
    shortName (some (joinName base ext)) = some (keyOf base ext) :=
  shortName_eq_some.mpr ⟨base, ext, h, h.cstring_joinName, rfl⟩

/-! ### Rendering -/

theorem nameField_eq (entry : Bytes) (n i : Nat) :
    nameField entry n i = ((List.range' i n).map entry).takeWhile (· ≠ 32) := by
  induction n generalizing i with
  | zero => rfl
  | succ n ih =>
      by_cases h : entry i = 32
      · simp [nameField, h]
      · simp [nameField, h, ih, List.range'_succ]

theorem takeWhile_pad {n : Nat} {part : List UInt8} (h : ∀ ch ∈ part, ch ≠ 32) :
    (pad n part).takeWhile (· ≠ 32) = part := by
  rw [pad, List.takeWhile_append_of_pos (by simpa using h)]
  simp

/-- `fat_next` renders a key as the name it is the key of, without regard to case. -/
theorem Parts.renderName (h : Parts base ext) {entry : Bytes}
    (he : (List.range 11).map entry = pad 8 base ++ pad 3 ext) :
    renderName entry = joinName base ext := by
  have hrange : List.range 11 = List.range' 0 8 ++ List.range' 8 3 := by decide
  rw [hrange, List.map_append] at he
  obtain ⟨hbase, hext⟩ := List.append_inj he (by simp [length_pad h.base_le])
  have h₈ : entry 8 = 32 ↔ ext = [] := by
    have hhead : entry 8 = (pad 3 ext).headD 0 := by rw [← hext]; rfl
    rw [hhead]
    cases ext with
    | nil => simp [pad, List.replicate]
    | cons ch ext => simpa [pad] using (h.ext_legal ch List.mem_cons_self).ne_space
  unfold Arunos.renderName joinName
  rw [nameField_eq, nameField_eq, hbase, hext,
    takeWhile_pad fun ch hch => (h.base_legal ch hch).ne_space,
    takeWhile_pad fun ch hch => (h.ext_legal ch hch).ne_space]
  by_cases hx : ext = []
  · simp [h₈.mpr hx, hx]
  · simp [mt h₈.mp hx, hx]

/-- Every key is the key of some entry. -/
theorem Parts.exists_entry (h : Parts base ext) :
    ∃ entry : Bytes, (List.range 11).map entry = keyOf base ext := by
  have hlen : (keyOf base ext).length = 11 := by
    rw [keyOf, List.length_append, length_pad h.upperCase.base_le, length_pad h.upperCase.ext_le]
  refine ⟨fun i => (keyOf base ext).getD i 0, List.ext_getElem (by simp [hlen]) ?_⟩
  intro i h₁ h₂
  simp [h₂]

/-- The name of an entry on the disk is canonical: legal characters without lower-case letters. -/
def Canonical (entry : Bytes) : Prop :=
  ∃ base ext, Parts base ext ∧ (∀ ch ∈ base ++ ext, ¬ (97 ≤ ch ∧ ch ≤ 122)) ∧
    (List.range 11).map entry = pad 8 base ++ pad 3 ext

/-- **Rendering, then parsing**: a canonical name comes back as its 11 bytes. -/
theorem shortName_renderName {entry : Bytes} (h : Canonical entry) :
    shortName (some (renderName entry)) = some ((List.range 11).map entry) := by
  obtain ⟨base, ext, hp, hup, he⟩ := h
  have hid : ∀ part ⊆ base ++ ext, part.map upperCase = part := by
    intro part hsub
    refine (List.map_congr_left fun ch hch => ?_).trans (List.map_id part)
    exact if_neg (hup ch (hsub hch))
  rw [hp.renderName he, hp.shortName, he, keyOf, hid base (List.subset_append_left base ext),
    hid ext (List.subset_append_right base ext)]

/-- **Parsing, then rendering**: the upper-cased name comes back. -/
theorem renderName_shortName (h : shortName (some name) = some key) {entry : Bytes}
    (he : (List.range 11).map entry = key) : renderName entry = (cstring name).map upperCase := by
  obtain ⟨base, ext, hp, hj, rfl⟩ := shortName_eq_some.mp h
  rw [hj, map_upperCase_joinName]
  exact hp.upperCase.renderName he

/-- **8.3 names are parsed exactly.**  For the string in any array: `short_name` accepts it exactly
if it is a base of 1 to 8 or a base, a dot and an extension of 1 to 3 legal characters; the key is
then both parts in upper case and padded; and two accepted names have one key exactly if they are
equal up to case. -/
theorem shortName_exact (name : List UInt8) :
    ((shortName (some name)).isSome ↔
      ∃ base ext, Parts base ext ∧ cstring name = joinName base ext) ∧
    (∀ base ext, Parts base ext → cstring name = joinName base ext →
      shortName (some name) = some (keyOf base ext)) ∧
    ∀ name' key key', shortName (some name) = some key → shortName (some name') = some key' →
      (key = key' ↔ (cstring name).map upperCase = (cstring name').map upperCase) := by
  refine ⟨?_, ?_, ?_⟩
  · rw [Option.isSome_iff_exists]
    simp only [shortName_eq_some]
    constructor
    · rintro ⟨key, base, ext, hp, hj, -⟩
      exact ⟨base, ext, hp, hj⟩
    · rintro ⟨base, ext, hp, hj⟩
      exact ⟨_, base, ext, hp, hj, rfl⟩
  · intro base ext hp hj
    exact shortName_eq_some.mpr ⟨base, ext, hp, hj, rfl⟩
  · intro name' key key' h h'
    obtain ⟨base, ext, hp, hj, rfl⟩ := shortName_eq_some.mp h
    obtain ⟨base', ext', hp', hj', rfl⟩ := shortName_eq_some.mp h'
    rw [hj, hj', map_upperCase_joinName, map_upperCase_joinName]
    constructor
    · intro hkey
      obtain ⟨entry, he⟩ := hp.exists_entry
      rw [← hp.upperCase.renderName he, ← hp'.upperCase.renderName (he.trans hkey)]
    · intro hname
      have hsame := hp.upperCase.shortName
      rw [hname, hp'.upperCase.shortName, keyOf_upperCase, keyOf_upperCase] at hsame
      exact (Option.some.inj hsame).symm

end Arunos
