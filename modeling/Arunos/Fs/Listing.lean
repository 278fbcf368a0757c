import Arunos.Fs.Complete

/-!
# Fs — Listing — the directory as `fat_next` lists it

`fat_next` keeps nothing between two calls but the cursor, and reads a sector of the root directory
when it starts and at every sixteenth slot.  `listing` are the results of the calls that feed each
positive result back in, as `syscall_dir` makes them; `listed` are the slots that a plain scan of
the directory finds.  With every read succeeding the two agree (`listing_exact`).

`NeedsSector` says which root sectors a call has to read, on any driver.  A call fails exactly if
one of these reads does (`rootEntry_error_iff`).

The names in the listing are the ones to open the files with, if they are canonical and distinct
(`listed_names_open`).
-/

namespace Arunos

variable {σ : Type} [BlockDevice σ] {img : Nat → Bytes} {v : Volume}
  {total fatSectors copies cursor : Nat}

/-! ### Which sectors a call needs -/

/-- Slot `i` of the root directory, in the buffer that holds its sector. -/
def slotIn (sector : Bytes) (i : Nat) : Bytes := fun k => sector (i % 16 * 32 + k)

/-- A slot that the scan goes past: not the end marker, and no regular file. -/
def Skipped (slot : Bytes) : Prop := slot 0 ≠ 0 ∧ ¬ Regular slot

/-- The root sectors that a call from `cursor` needs, each with the state of the driver when it is
read: the one of the cursor, and after a sector with nothing but slots to skip the next one. -/
inductive NeedsSector (v : Volume) (cursor : Nat) (s : σ) : Nat → σ → Prop where
  | first (lt : cursor < v.rootEntries) : NeedsSector v cursor s (cursor / 16) s
  | next {j : Nat} {t t' : σ} {sector : Bytes} (before : NeedsSector v cursor s j t)
      (read : blockRead t (u32 (v.rootStart + j)) = (some sector, t'))
      (skip : ∀ i, cursor ≤ i → i / 16 = j → Skipped (slotIn sector i))
      (more : 16 * (j + 1) < v.rootEntries) : NeedsSector v cursor s (j + 1) t'

/-- The loop at slot `i`, once the sector is in the buffer. -/
def examine (v : Volume) (cursor n i : Nat) (sector : Bytes) (s : σ) : RootEntry × σ :=
  if slotIn sector i 0 = 0 then (.eof, s)
  else if slotIn sector i 0 = 0xe5 ∨ slotIn sector i 11 &&& 0x18 ≠ 0 then
    rootEntryLoop v cursor n (i + 1) sector s
  else (.slot (i + 1) (slotIn sector i), s)

theorem examine_skipped {n i : Nat} {sector : Bytes} {s : σ} (h : Skipped (slotIn sector i)) :
    examine v cursor n i sector s = rootEntryLoop v cursor n (i + 1) sector s := by
  rw [examine, if_neg h.1, if_pos (not_regular_iff.mp h.2)]

theorem rootEntryLoop_load {n i : Nat} {sector : Bytes} {s : σ} (h : i = cursor ∨ i % 16 = 0) :
    rootEntryLoop v cursor (n + 1) i sector s =
      match blockRead s (u32 (v.rootStart + i / 16)) with
      | (none, s') => (.error, s')
      | (some sector, s') => examine v cursor n i sector s' := by
  rw [rootEntryLoop, if_pos h]
  rfl

theorem rootEntryLoop_loaded {n i : Nat} {sector : Bytes} {s : σ}
    (h : ¬ (i = cursor ∨ i % 16 = 0)) :
    rootEntryLoop v cursor (n + 1) i sector s = examine v cursor n i sector s := by
  rw [rootEntryLoop, if_neg h]
  rfl

/-- The loop at slot `i`: it is about to read the sector, or has read it and skipped the slots
before. -/
inductive ScansAt (v : Volume) (cursor : Nat) (s₀ : σ) (i : Nat) (sector : Bytes) (s : σ) :
    Prop where
  | load (at_start : i = cursor ∨ i % 16 = 0)
      (needs : i < v.rootEntries → NeedsSector v cursor s₀ (i / 16) s)
  | loaded (inside : ¬ (i = cursor ∨ i % 16 = 0)) {t : σ}
      (needs : NeedsSector v cursor s₀ (i / 16) t)
      (read : blockRead t (u32 (v.rootStart + i / 16)) = (some sector, s))
      (skip : ∀ l, cursor ≤ l → l / 16 = i / 16 → l < i → Skipped (slotIn sector l))

/-- Past one more slot. -/
theorem NeedsSector.scansAt {s₀ t s : σ} {i : Nat} {sector : Bytes}
    (needs : NeedsSector v cursor s₀ (i / 16) t) (hc : cursor ≤ i)
    (read : blockRead t (u32 (v.rootStart + i / 16)) = (some sector, s))
    (skip : ∀ l, cursor ≤ l → l / 16 = i / 16 → l ≤ i → Skipped (slotIn sector l)) :
    ScansAt v cursor s₀ (i + 1) sector s := by
  by_cases hnext : (i + 1) % 16 = 0
  · have hj : (i + 1) / 16 = i / 16 + 1 := by omega
    refine .load (.inr hnext) fun hlt => ?_
    rw [hj]
    exact needs.next read (fun l h₁ h₂ => skip l h₁ h₂ (by omega)) (by omega)
  · have hj : (i + 1) / 16 = i / 16 := by omega
    refine .loaded (by omega) (hj ▸ needs) (hj ▸ read) ?_
    intro l h₁ h₂ h₃
    exact skip l h₁ (h₂.trans hj) (by omega)

/-- A failure of the scan is a failure to read a sector it needs. -/
theorem rootEntryLoop_error {s₀ s : σ} {n i : Nat} {sector : Bytes} (hn : i + n = v.rootEntries)
    (hc : cursor ≤ i) (hat : ScansAt v cursor s₀ i sector s)
    (h : (rootEntryLoop v cursor n i sector s).1 = .error) :
    ∃ j t, NeedsSector v cursor s₀ j t ∧ (blockRead t (u32 (v.rootStart + j))).1 = none := by
  induction n generalizing i sector s with
  | zero => simp [rootEntryLoop] at h
  | succ n ih =>
      -- with the sector in the buffer, the slot is the last one or the scan goes on
      have hgo : ∀ {t s' : σ} {sec : Bytes}, NeedsSector v cursor s₀ (i / 16) t →
          blockRead t (u32 (v.rootStart + i / 16)) = (some sec, s') →
          (∀ l, cursor ≤ l → l / 16 = i / 16 → l < i → Skipped (slotIn sec l)) →
          (examine v cursor n i sec s').1 = .error →
          ∃ j t, NeedsSector v cursor s₀ j t ∧ (blockRead t (u32 (v.rootStart + j))).1 = none := by
        intro t s' sec needs read skip he
        by_cases hskip : Skipped (slotIn sec i)
        · rw [examine_skipped hskip] at he
          refine ih (by omega) (by omega) (needs.scansAt hc read ?_) he
          intro l h₁ h₂ h₃
          rcases Nat.eq_or_lt_of_le h₃ with rfl | h₃
          · exact hskip
          · exact skip l h₁ h₂ h₃
        · unfold examine at he
          split at he
          · cases he
          next h₀ =>
            rw [if_neg fun hbad => hskip ⟨h₀, not_regular_iff.mpr hbad⟩] at he
            cases he
      cases hat with
      | load hload needs =>
          have needs := needs (by omega)
          rw [rootEntryLoop_load hload] at h
          split at h
          next s' hr => exact ⟨i / 16, s, needs, by rw [hr]⟩
          next sec s' hr => exact hgo needs hr (fun l h₁ h₂ h₃ => by omega) h
      | loaded hin needs read skip =>
          rw [rootEntryLoop_loaded hin] at h
          exact hgo needs read skip h

/-- Slots to skip, in a sector that is in the buffer. -/
theorem rootEntryLoop_skip {s : σ} {sector : Bytes} {n i : Nat} (d : Nat)
    (hd : ∀ l, i ≤ l → l < i + d → ¬ (l = cursor ∨ l % 16 = 0) ∧ Skipped (slotIn sector l)) :
    rootEntryLoop v cursor (n + d) i sector s = rootEntryLoop v cursor n (i + d) sector s := by
  induction d generalizing i with
  | zero => rfl
  | succ d ih =>
      obtain ⟨hin, hskip⟩ := hd i le_rfl (by omega)
      rw [← Nat.add_assoc, rootEntryLoop_loaded hin, examine_skipped hskip, ih]
      · rw [Nat.add_right_comm, Nat.add_assoc]
      · intro l h₁ h₂
        exact hd l (by omega) (by omega)

/-- The scan comes to every sector that it needs. -/
theorem NeedsSector.reached {s₀ t : σ} {j : Nat} (h : NeedsSector v cursor s₀ j t) :
    ∃ i n sector, i / 16 = j ∧ cursor ≤ i ∧ (i = cursor ∨ i % 16 = 0) ∧
      i + (n + 1) = v.rootEntries ∧
      rootEntryLoop v cursor (v.rootEntries - cursor) cursor (fun _ => 0) s₀ =
        rootEntryLoop v cursor (n + 1) i sector t := by
  induction h with
  | first lt =>
      have hn : v.rootEntries - cursor = v.rootEntries - cursor - 1 + 1 := by omega
      exact ⟨cursor, v.rootEntries - cursor - 1, fun _ => 0, rfl, le_rfl, .inl rfl, by omega,
        by rw [← hn]⟩
  | @next j t t' sec before read skip more ih =>
      obtain ⟨i, n, old, rfl, hc, hload, hn, heq⟩ := ih
      -- from slot `i` to the end of its sector there are `d` more slots
      obtain ⟨d, hd⟩ : ∃ d, i + 1 + d = 16 * (i / 16 + 1) := ⟨16 * (i / 16 + 1) - (i + 1), by omega⟩
      obtain ⟨m, hm⟩ : ∃ m, n = m + 1 + d := ⟨n - 1 - d, by omega⟩
      refine ⟨16 * (i / 16 + 1), m, sec, by omega, by omega, .inr (by omega), by omega, ?_⟩
      rw [heq, rootEntryLoop_load hload, read]
      dsimp only
      rw [examine_skipped (skip i hc rfl), hm, rootEntryLoop_skip d, hd]
      intro l h₁ h₂
      exact ⟨by omega, skip l (by omega) (by omega)⟩

/-- **When a call fails**: no volume, a cursor beyond the directory, or a needed sector that cannot
be read. -/
theorem rootEntry_error_iff {s : σ} : (rootEntry v cursor s).1 = .error ↔
    v.mounted = false ∨ cursor > v.rootEntries ∨
      ∃ j t, NeedsSector v cursor s j t ∧ (blockRead t (u32 (v.rootStart + j))).1 = none := by
  by_cases hstart : !v.mounted ∨ cursor > v.rootEntries
  · rw [rootEntry, if_pos hstart]
    simp only [Bool.not_eq_true'] at hstart
    rcases hstart with h | h <;> simp [h]
  · rw [rootEntry, if_neg hstart]
    simp only [Bool.not_eq_true', not_or, Bool.not_eq_false, gt_iff_lt, not_lt] at hstart
    obtain ⟨hm, hle⟩ := hstart
    constructor
    · intro h
      refine .inr (.inr (rootEntryLoop_error (by omega) le_rfl (.load (.inl rfl) .first) h))
    · rintro (h | h | ⟨j, t, needs, hfail⟩)
      · rw [hm] at h
        cases h
      · omega
      · obtain ⟨i, n, sector, rfl, -, hload, -, heq⟩ := needs.reached
        rw [heq, rootEntryLoop_load hload]
        split
        · rfl
        next hr =>
          rw [hr] at hfail
          cases hfail

/-! ### The calls -/

theorem fatNext_pos {s : σ} (h : 0 < (fatNext v cursor s).1.1) :
    cursor < (fatNext v cursor s).1.1.toNat ∧ (fatNext v cursor s).1.1.toNat ≤ v.rootEntries := by
  revert h
  cases hr : rootEntry v cursor s with
  | mk e s' =>
      cases e with
      | error => simp [fatNext, hr]
      | eof => simp [fatNext, hr]
      | slot next entry =>
          intro _
          simpa [fatNext, hr] using rootEntry_slot (congrArg Prod.fst hr)

/-- The results of `fat_next` from `cursor` on, each positive one fed back in as the next cursor. -/
def listing (v : Volume) (cursor : Nat) (s : σ) : List (Int × List UInt8) × σ :=
  if _h : 0 < (fatNext v cursor s).1.1 then
    let rest := listing v (fatNext v cursor s).1.1.toNat (fatNext v cursor s).2
    ((fatNext v cursor s).1 :: rest.1, rest.2)
  else ([(fatNext v cursor s).1], (fatNext v cursor s).2)
termination_by v.rootEntries - cursor
decreasing_by
  have := fatNext_pos _h
  omega

instance : DecidablePred Regular := fun _ => inferInstanceAs (Decidable (_ ∧ _))

/-- The regular slots before the first end marker. -/
def listed (img : Nat → Bytes) (v : Volume) : List Nat :=
  (List.range v.rootEntries).filter fun i =>
    (∀ j ≤ i, rootSlot img v j 0 ≠ 0) ∧ Regular (rootSlot img v i)

theorem mem_listed {i : Nat} : i ∈ listed img v ↔
    i < v.rootEntries ∧ (∀ j ≤ i, rootSlot img v j 0 ≠ 0) ∧ Regular (rootSlot img v i) := by
  simp [listed]

theorem listed_sorted (img : Nat → Bytes) (v : Volume) : (listed img v).Pairwise (· < ·) :=
  List.pairwise_lt_range.filter _

/-- What the call that reports slot `i` returns. -/
def reported (img : Nat → Bytes) (v : Volume) (i : Nat) : Int × List UInt8 :=
  ((i : Int) + 1, renderName (rootSlot img v i))

/-- The least element from `cursor` on comes first among them. -/
theorem filter_eq_cons {l : List Nat} {k : Nat} (hl : l.Pairwise (· < ·)) (hk : k ∈ l)
    (hc : cursor ≤ k) (hmin : ∀ i ∈ l, cursor ≤ i → k ≤ i) :
    l.filter (cursor ≤ ·) = k :: l.filter (k + 1 ≤ ·) := by
  induction l with
  | nil => cases hk
  | cons x l ih =>
      obtain ⟨hx, hl⟩ := List.pairwise_cons.mp hl
      by_cases hxc : cursor ≤ x
      · have hkx : k = x := by
          rcases List.mem_cons.mp hk with h | h
          · exact h
          · exact le_antisymm (hmin x List.mem_cons_self hxc) (hx k h).le
        subst hkx
        have h₁ : l.filter (cursor ≤ ·) = l := by
          refine List.filter_eq_self.mpr fun i hi => ?_
          simpa using hc.trans (hx i hi).le
        have h₂ : l.filter (k + 1 ≤ ·) = l := by
          refine List.filter_eq_self.mpr fun i hi => ?_
          exact decide_eq_true (hx i hi)
        rw [List.filter_cons_of_pos (by simpa using hxc), List.filter_cons_of_neg (by simp), h₁, h₂]
      · have hk : k ∈ l := by
          rcases List.mem_cons.mp hk with h | h
          · exact absurd (h ▸ hc) hxc
          · exact h
        rw [List.filter_cons_of_neg (by simpa using hxc), List.filter_cons_of_neg (by simp; omega)]
        exact ih hl hk fun i hi => hmin i (List.mem_cons_of_mem x hi)

section Serving

variable {n : Nat} (hd : Serves σ img n) (g : Geometry v total fatSectors copies) (ht : total ≤ n)
include hd g ht

theorem NeedsSector.readable {s t : σ} {j : Nat} (h : NeedsSector v cursor s j t) :
    (blockRead t (u32 (v.rootStart + j))).1 ≠ none := by
  obtain ⟨i, m, -, rfl, -, -, hm, -⟩ := h.reached
  obtain ⟨hu, -, hlt⟩ := g.rootSector (show i < v.rootEntries by omega)
  rw [hu]
  exact hd.read t _ (by omega)

/-- A call on a disk that serves every sector: the next slot of the listing, or its end. -/
theorem fatNext_cases (hc : cursor ≤ v.rootEntries) (hpre : ∀ j < cursor, rootSlot img v j 0 ≠ 0)
    (s : σ) :
    ((fatNext v cursor s).1 = (0, []) ∧ ∀ i ∈ listed img v, i < cursor) ∨
      ∃ k ∈ listed img v, (fatNext v cursor s).1 = reported img v k ∧ cursor ≤ k ∧
        ∀ i ∈ listed img v, cursor ≤ i → k ≤ i := by
  cases hr : rootEntry v cursor s with
  | mk e s' =>
      have he : (rootEntry v cursor s).1 = e := by rw [hr]
      cases e with
      | error =>
          rcases rootEntry_error_iff.mp he with h | h | ⟨j, t, needs, hfail⟩
          · rw [g.mounted] at h
            cases h
          · omega
          · exact absurd hfail (needs.readable hd g ht)
      | eof =>
          refine .inl ⟨by simp [fatNext, hr], fun i hi => ?_⟩
          by_contra hlt
          obtain ⟨hlt', hend, hreg⟩ := mem_listed.mp hi
          obtain ⟨k, hslot, -⟩ := rootEntry_finds hd g ht s (Nat.le_of_not_lt hlt) hlt' hend hreg
          rw [he] at hslot
          cases hslot
      | slot next entry =>
          obtain ⟨k, rfl, rfl, hk⟩ := rootEntry_next hd.holds g he
          refine .inr ⟨k, mem_listed.mpr ⟨hk.lt, fun j hj => ?_, hk.regular⟩, ?_, hk.le, ?_⟩
          · by_cases hjc : j < cursor
            · exact hpre j hjc
            · exact hk.before_end j (Nat.le_of_not_lt hjc) hj
          · simp [fatNext, hr, reported]
          · intro i hi hci
            by_contra hlt
            exact hk.skipped i hci (Nat.lt_of_not_le hlt) (mem_listed.mp hi).2.2

/-- The calls from a cursor with no end marker before it report the rest of the listing. -/
theorem listing_from (hc : cursor ≤ v.rootEntries) (hpre : ∀ j < cursor, rootSlot img v j 0 ≠ 0)
    (s : σ) :
    (listing v cursor s).1 =
      ((listed img v).filter (cursor ≤ ·)).map (reported img v) ++ [(0, [])] := by
  -- the slots left to scan; each call but the last moves the cursor on
  induction hm : v.rootEntries - cursor using Nat.strong_induction_on generalizing cursor s with
  | _ m ih =>
      rw [listing]
      rcases fatNext_cases hd g ht hc hpre s with ⟨hr, hnone⟩ | ⟨k, hk, hr, hck, hmin⟩
      · have hnil : (listed img v).filter (cursor ≤ ·) = [] := by
          refine List.filter_eq_nil_iff.mpr fun i hi => ?_
          simpa using hnone i hi
        rw [dif_neg (by simp [hr]), hr, hnil]
        rfl
      · obtain ⟨hlt, hend, -⟩ := mem_listed.mp hk
        have hnext : (reported img v k).1.toNat = k + 1 := by simp [reported]
        rw [dif_pos (by rw [hr]; simp only [reported]; omega), hr, hnext]
        dsimp only
        rw [ih _ (by omega) (by omega) (fun j hj => hend j (by omega)) _ rfl,
          filter_eq_cons (listed_sorted img v) hk hck hmin, List.map_cons, List.cons_append]

end Serving

/-- The calls from cursor 0 on a mounted volume. -/
theorem listing_zero {n : Nat} (hd : Serves σ img n) {v₀ : Volume} {s₀ s₁ : σ}
    (hm : fatInit v₀ s₀ = (true, v, s₁)) (s : σ) :
    (listing v 0 s).1 = (listed img v).map (reported img v) ++ [(0, [])] := by
  obtain ⟨total, fatSectors, copies, g, hle⟩ := fatInit_geometry hm
  rw [hd.count] at hle
  have hall : (listed img v).filter (0 ≤ ·) = listed img v :=
    List.filter_eq_self.mpr fun i _ => by simp
  rw [listing_from hd g hle (Nat.zero_le _) (fun j hj => absurd hj (Nat.not_lt_zero j)) s, hall]

/-! ### Names and buffers -/

theorem length_nameField (entry : Bytes) (n i : Nat) : (nameField entry n i).length ≤ n := by
  rw [nameField_eq]
  exact (List.takeWhile_prefix _).length_le.trans (by simp)

/-- With its NUL a name fits in 13 bytes. -/
theorem length_renderName (entry : Bytes) : (renderName entry).length + 1 ≤ 13 := by
  have hbase := length_nameField entry 8 0
  have hext := length_nameField entry 3 8
  unfold renderName
  split <;> simp only [List.length_append, List.length_cons, List.length_nil] <;> omega

/-- **The directory listing is exact.** On a volume that `fat_init` accepts, from a disk that serves
all its sectors, the calls from cursor 0 report the regular slots before the end marker, in order
and once each, and end with 0 after at most `root_entries + 1` calls.  On any driver and from any
cursor, a call returns -1 exactly when there is no volume, the cursor is beyond the directory or a
root sector it needs cannot be read. -/
theorem listing_exact {n : Nat} (hd : Serves σ img n) {v₀ : Volume} {s₀ s₁ : σ}
    (hm : fatInit v₀ s₀ = (true, v, s₁)) (s : σ) :
    ((listing v 0 s).1 = (listed img v).map (reported img v) ++ [(0, [])] ∧
      ((listing v 0 s).1.dropLast.map Prod.fst).Pairwise (· < ·) ∧
      (listing v 0 s).1.length ≤ v.rootEntries + 1 ∧
      ∀ r ∈ (listing v 0 s).1, r.2.length + 1 ≤ 13) ∧
    ∀ (τ : Type) [BlockDevice τ] (v : Volume) (cursor : Nat) (t : τ),
      (fatNext v cursor t).1.1 = -1 ↔ v.mounted = false ∨ cursor > v.rootEntries ∨
        ∃ j t', NeedsSector v cursor t j t' ∧ (blockRead t' (u32 (v.rootStart + j))).1 = none := by
  have hall := listing_zero hd hm s
  refine ⟨⟨hall, ?_, ?_, ?_⟩, ?_⟩
  · rw [hall, List.dropLast_concat, List.map_map]
    refine List.pairwise_map.mpr ((listed_sorted img v).imp fun h => ?_)
    simpa [reported] using h
  · rw [hall, List.length_append, List.length_map, List.length_singleton]
    exact Nat.succ_le_succ ((List.length_filter_le _ _).trans (List.length_range).le)
  · intro r hr
    rw [hall, List.mem_append, List.mem_singleton, List.mem_map] at hr
    rcases hr with ⟨i, -, rfl⟩ | rfl
    · exact length_renderName _
    · simp
  · intro τ _ v cursor t
    rw [← rootEntry_error_iff]
    cases hr : rootEntry v cursor t with
    | mk e t' =>
        cases e with
        | error => simp [fatNext, hr]
        | eof => simp [fatNext, hr]
        | slot next entry => simp only [fatNext, hr, reduceCtorEq]

theorem listed_shellDisk : listed shellDisk.bytes shellVolume = [0, 1] := by decide +kernel

theorem reported_shellDisk :
    (listed shellDisk.bytes shellVolume).map (reported shellDisk.bytes shellVolume) =
      [(1, [83, 72, 69, 76, 76]), (2, [66, 65, 68])] := by
  rw [listed_shellDisk]
  decide +kernel

/-- The listing of `shellDisk`: its two files, then the end. -/
theorem listing_exact_shell :
    (listing shellVolume 0 (⟨⟩ : shellDisk.Reader)).1 =
      [(1, [83, 72, 69, 76, 76]), (2, [66, 65, 68]), (0, [])] := by
  rw [(listing_exact shellDisk.serves fatInit_shellDisk ⟨⟩).1.1, reported_shellDisk]
  rfl

/-! ### Opening what is listed -/

/-- **Listed names open the listed file.** The name `fat_next` renders for an entry with a canonical
name is parsed back to its 11 bytes, and the key of an accepted name is rendered as the name in
upper case.  So where the listed slots have distinct canonical names, `fat_open` of each name in the
listing goes to the slot it was reported for. -/
theorem listed_names_open :
    (∀ entry, Canonical entry →
      shortName (some (renderName entry)) = some ((List.range 11).map entry)) ∧
    (∀ name key entry, shortName (some name) = some key → (List.range 11).map entry = key →
      renderName entry = (cstring name).map upperCase) ∧
    ∀ (σ : Type) [BlockDevice σ] (img : Nat → Bytes) (n : Nat) (v₀ v : Volume) (s₀ s₁ s s' : σ),
      Serves σ img n → fatInit v₀ s₀ = (true, v, s₁) →
      (∀ i ∈ listed img v, Canonical (rootSlot img v i)) →
      (∀ i ∈ listed img v, ∀ j ∈ listed img v,
        (List.range 11).map (rootSlot img v i) = (List.range 11).map (rootSlot img v j) → i = j) →
      ∀ r ∈ (listing v 0 s).1, 0 < r.1 → ∃ i ∈ listed img v, r = reported img v i ∧
        FirstNamed img v ((List.range 11).map (rootSlot img v i)) i ∧
        ∃ s'' : σ, (fatOpen v (some r.2) s').1 = (openEntry v (rootSlot img v i) s'').1 := by
  refine ⟨fun _ => shortName_renderName, fun _ _ _ h he => renderName_shortName h he, ?_⟩
  intro σ _ img n v₀ v s₀ s₁ s s' hd hm hcanon hdistinct r hr hpos
  obtain ⟨total, fatSectors, copies, g, hle⟩ := fatInit_geometry hm
  rw [hd.count] at hle
  rw [listing_zero hd hm s, List.mem_append, List.mem_map, List.mem_singleton] at hr
  rcases hr with ⟨i, hi, rfl⟩ | rfl
  · obtain ⟨hlt, hend, hreg⟩ := mem_listed.mp hi
    -- no earlier slot has the name, for it would be listed too
    have hfirst : FirstNamed img v ((List.range 11).map (rootSlot img v i)) i := by
      refine ⟨hlt, hend, hreg, rfl, fun j hj hregj he => ?_⟩
      have hjl := mem_listed.mpr ⟨hj.trans hlt, fun l hl => hend l (hl.trans hj.le), hregj⟩
      exact absurd (hdistinct j hjl i hi he) hj.ne
    obtain ⟨s'', hopen⟩ := fatOpenLoop_reaches hd g hle (s := s') (Nat.zero_le i) hfirst
    refine ⟨i, hi, rfl, hfirst, s'', ?_⟩
    rw [← hopen, fatOpen, if_neg (by simp [g.mounted])]
    simp only [reported, shortName_renderName (hcanon i hi)]
  · exact absurd hpos (lt_irrefl _)

theorem canonical_shellDisk : ∀ i ∈ listed shellDisk.bytes shellVolume,
    Canonical (rootSlot shellDisk.bytes shellVolume i) := by
  rw [listed_shellDisk, List.forall_mem_cons, List.forall_mem_singleton]
  refine ⟨⟨[83, 72, 69, 76, 76], [], ?_⟩, ⟨[66, 65, 68], [], ?_⟩⟩
  all_goals
    exact ⟨⟨by decide, by decide, by decide, by decide +kernel, by decide +kernel⟩,
      by decide +kernel, by decide +kernel⟩

/-- The name of the second file of `shellDisk`, as it is listed, opens that file. -/
theorem listed_names_open_shell :
    ∃ s : shellDisk.Reader,
      (fatOpen shellVolume (some [66, 65, 68]) (⟨⟩ : shellDisk.Reader)).1 =
        (openEntry shellVolume (rootSlot shellDisk.bytes shellVolume 1) s).1 := by
  have hdistinct : ∀ i ∈ listed shellDisk.bytes shellVolume,
      ∀ j ∈ listed shellDisk.bytes shellVolume,
      (List.range 11).map (rootSlot shellDisk.bytes shellVolume i) =
        (List.range 11).map (rootSlot shellDisk.bytes shellVolume j) → i = j := by
    rw [listed_shellDisk]
    decide +kernel
  have hr : (2, [66, 65, 68]) ∈ (listing shellVolume 0 (⟨⟩ : shellDisk.Reader)).1 := by
    rw [listing_zero shellDisk.serves fatInit_shellDisk ⟨⟩, reported_shellDisk]
    simp
  obtain ⟨i, hi, hname, -, s, hs⟩ := listed_names_open.2.2 shellDisk.Reader shellDisk.bytes
    shellDisk.sectors Volume.zero shellVolume ⟨⟩ ⟨⟩ ⟨⟩ ⟨⟩ shellDisk.serves fatInit_shellDisk
    canonical_shellDisk hdistinct _ hr (by decide)
  have hone : ∀ i ∈ listed shellDisk.bytes shellVolume,
      (2, [66, 65, 68]) = reported shellDisk.bytes shellVolume i → i = 1 := by
    rw [listed_shellDisk]
    decide +kernel
  obtain rfl := hone i hi hname
  exact ⟨s, hs⟩

end Arunos
