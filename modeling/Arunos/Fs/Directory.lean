import Arunos.Fs.Complete
import Arunos.Fs.Listing

/-!
# Fs — Directory — the directory a disk holds

On a disk that serves its contents the driver's state does not matter: what `fat_init` leaves
behind and what a name opens are functions of the contents.  `fileNamed img v name` is the second of
them, without a cursor, a sector buffer or a loop over clusters: the first listed slot with the
name's key, if its chain is as long as its size asks for.  `fatOpen_eq_fileNamed` says that
`fat_open` computes it.
-/

namespace Arunos

variable {σ : Type} [BlockDevice σ] {img : Nat → Bytes} {v : Volume} {n : Nat}
  {total fatSectors copies : Nat}

/-- The chain of `count` clusters from `first` is valid and ends with a marker. -/
def chained (img : Nat → Bytes) (v : Volume) (first count : Nat) : Bool :=
  (List.iterate (fatEntry img v) first count).all (validCluster v) &&
    endMarker ((fatEntry img v)^[count] first)

/-- The file of a root slot: an empty one has no cluster, another one has a chain for its size. -/
def fileOf (img : Nat → Bytes) (v : Volume) (slot : Bytes) : Option FatFile :=
  let file : FatFile := ⟨le32 slot 28, le16 slot 26⟩
  let count := (file.size + v.clusterBytes - 1) / v.clusterBytes
  if file.size = 0 then (if file.cluster = 0 then some file else none)
  else if count ≤ v.clusters ∧ chained img v file.cluster count = true then some file
  else none

/-- The slot of a key: the first one listed with these eleven bytes. -/
def slotNamed (img : Nat → Bytes) (v : Volume) (key : List UInt8) : Option Nat :=
  (listed img v).find? fun i => (List.range 11).map (rootSlot img v i) = key

/-- The file of a name. -/
def fileNamed (img : Nat → Bytes) (v : Volume) (name : List UInt8) : Option FatFile :=
  (shortName (some name)).bind fun key =>
    (slotNamed img v key).bind fun i => fileOf img v (rootSlot img v i)

theorem chained_iff {first count : Nat} :
    chained img v first count = true ↔ ChainOk img v first count := by
  simp only [chained, Bool.and_eq_true, List.all_eq_true, List.mem_iterate, endMarker,
    decide_eq_true_eq]
  constructor
  · rintro ⟨hall, hmark⟩
    exact ⟨fun i hi => hall _ ⟨i, hi, rfl⟩, hmark⟩
  · rintro ⟨hall, hmark⟩
    refine ⟨?_, hmark⟩
    rintro _ ⟨i, hi, rfl⟩
    exact hall i hi

/-- The slot of a key is the first one named so. -/
theorem slotNamed_eq_some {key : List UInt8} {i : Nat} :
    slotNamed img v key = some i ↔ FirstNamed img v key i := by
  constructor
  · intro h
    obtain ⟨hkey, m, hm, rfl, hbefore⟩ := List.find?_eq_some_iff_getElem.mp h
    obtain ⟨hlt, hend, hreg⟩ := mem_listed.mp (List.getElem_mem hm)
    refine ⟨hlt, hend, hreg, by simpa using hkey, fun j hj hregj he => ?_⟩
    -- an earlier slot with the key would be listed, and before this one
    have hjl : j ∈ listed img v :=
      mem_listed.mpr ⟨hj.trans hlt, fun l hl => hend l (hl.trans hj.le), hregj⟩
    obtain ⟨m', hm', rfl⟩ := List.getElem_of_mem hjl
    have hlt' : m' < m := by
      by_contra hle
      rcases Nat.eq_or_lt_of_le (Nat.le_of_not_lt hle) with rfl | hlt'
      · exact lt_irrefl _ hj
      · have := List.pairwise_iff_getElem.mp (listed_sorted img v) m m' hm hm' hlt'
        omega
    simpa [he] using hbefore m' hlt'
  · intro h
    have hi : i ∈ listed img v := mem_listed.mpr ⟨h.lt, h.before_end, h.regular⟩
    cases hf : slotNamed img v key with
    | none => exact absurd h.named (by simpa using List.find?_eq_none.mp hf i hi)
    | some j =>
        have hkey : (List.range 11).map (rootSlot img v j) = key := by
          simpa using List.find?_some hf
        obtain ⟨-, -, hreg⟩ := mem_listed.mp (List.mem_of_find?_eq_some hf)
        obtain ⟨-, m, hm, rfl, hbefore⟩ := List.find?_eq_some_iff_getElem.mp hf
        obtain ⟨m', hm', rfl⟩ := List.getElem_of_mem hi
        rcases Nat.lt_trichotomy m' m with hlt | rfl | hlt
        · exact absurd h.named (by simpa using hbefore m' hlt)
        · rfl
        · have hsorted := List.pairwise_iff_getElem.mp (listed_sorted img v) m m' hm hm' hlt
          exact absurd hkey (h.first _ hsorted hreg)

section Serving

variable (hd : Serves σ img n) (g : Geometry v total fatSectors copies) (ht : total ≤ n)
include hd g ht

/-- What `fat_open` does at an entry. -/
theorem openEntry_eq_fileOf (entry : Bytes) (s : σ) :
    (openEntry v entry s).1 = fileOf img v entry := by
  have hlt := le32_lt entry 28
  simp only [openEntry, fileOf]
  by_cases h₀ : le32 entry 28 = 0
  · rw [if_pos h₀, if_pos h₀]
  rw [if_neg h₀, if_neg h₀, count_eq g (Nat.pos_of_ne_zero h₀) hlt]
  generalize (le32 entry 28 + v.clusterBytes - 1) / v.clusterBytes = count
  by_cases hcount : count > v.clusters
  · rw [if_pos hcount, if_neg fun h => absurd h.1 (by omega)]
  rw [if_neg hcount]
  by_cases hall : ∀ i < count, validCluster v ((fatEntry img v)^[i] (le16 entry 26)) = true
  · have hfollow := followClusters_of_valid hd g ht hall s
    split
    next hr => rw [hr] at hfollow; cases hfollow
    next c s' hr =>
      rw [hr] at hfollow
      cases Option.some.inj hfollow
      refine if_congr ?_ rfl rfl
      exact ⟨fun hm => ⟨by omega, chained_iff.mpr ⟨hall, hm⟩⟩, fun h => (chained_iff.mp h.2).marker⟩
  · rw [if_neg fun h => hall (chained_iff.mp h.2).valid]
    split
    next => rfl
    next c s' hr =>
      exact absurd (followClusters_some hd.holds g (by rw [hr])).1 hall

/-- **`fat_open` finds the file of the name**, whatever the driver's state. -/
theorem fatOpen_eq_fileNamed (name : List UInt8) (s : σ) :
    (fatOpen v (some name) s).1 = fileNamed img v name := by
  unfold fileNamed
  cases hkey : shortName (some name) with
  | none => rw [fatOpen, if_neg (by simp [g.mounted]), hkey]; rfl
  | some key =>
      rw [Option.bind_some]
      cases hslot : slotNamed img v key with
      | some i =>
          obtain ⟨s', hreach⟩ := fatOpenLoop_reaches hd g ht (s := s) (Nat.zero_le i)
            (slotNamed_eq_some.mp hslot)
          rw [fatOpen, if_neg (by simp [g.mounted]), hkey]
          exact hreach.trans (openEntry_eq_fileOf hd g ht _ s')
      | none =>
          cases hopen : (fatOpen v (some name) s).1 with
          | none => rfl
          | some file =>
              obtain ⟨key', i, s', hkey', hi, -⟩ := fatOpen_some hd.holds g hopen
              cases hkey.symm.trans hkey'
              rw [slotNamed_eq_some.mpr hi] at hslot
              cases hslot

end Serving

/-- **A disk that mounts, mounts from every state of its driver**, to the same volume. -/
theorem fatInit_serves (hd : Serves σ img n) {v₀ : Volume} {s₀ s₁ : σ}
    (hm : fatInit v₀ s₀ = (true, v, s₁)) (s : σ) : ∃ s', fatInit v₀ s = (true, v, s') := by
  obtain ⟨total, fatSectors, copies, g, ht⟩ := fatInit_geometry hm
  rw [hd.count] at ht
  have hn : 0 < n := by
    have := g.data_le
    have := g.fatStart_pos
    have := g.rootStart
    have := g.dataStart
    omega
  refine ⟨(blockRead s 0).2, ?_⟩
  rw [fatInit, hd.read_eq s₀ hn] at hm
  rw [fatInit, hd.read_eq s hn]
  dsimp only at hm ⊢
  rw [hd.count] at hm ⊢
  -- the two runs pass the same checks
  split at hm
  · cases hm
  next h₁ =>
    rw [if_neg h₁]
    split at hm
    · cases hm
    next h₂ =>
      rw [if_neg h₂]
      split at hm
      · cases hm
      next h₃ =>
        rw [if_neg h₃]
        split at hm
        · cases hm
        next h₄ =>
          rw [if_neg h₄]
          cases hm
          rfl

/-- The bytes of `bad`. -/
def badName : List UInt8 := [98, 97, 100]

/-- The other file of `shellDisk`. -/
theorem fatOpen_badName (s : shellDisk.Reader) :
    (fatOpen shellVolume (some badName) s).1 = some ⟨88, 3⟩ := by
  obtain ⟨total, fatSectors, copies, g, ht⟩ := fatInit_geometry fatInit_shellDisk
  rw [fatOpen_eq_fileNamed shellDisk.serves g ht]
  decide +kernel

end Arunos
