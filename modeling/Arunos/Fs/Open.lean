import Arunos.Fs.Mount
import Arunos.Support.Orbit

/-!
# Fs — Open — what `fat_open` validates

A volume's contents are read off a disk image `img`: `fatEntry img v c` is the FAT entry of
cluster `c`, `rootSlot img v i` the 32 bytes of root slot `i`, and `fatChain img v c` the clusters
from `c` up to the end-of-chain marker.

`fat_open` keeps no set of visited clusters.  It follows `ceil (size / cluster_bytes)` entries,
each from a valid cluster, and then asks for the marker.  The marker is no valid cluster, so the
clusters followed are the iterates of `fatEntry` before a stop, and `iterate_ne` makes them
distinct (`followClusters_chain`).
-/

namespace Arunos

variable {σ : Type} [BlockDevice σ] {img : Nat → Bytes} {v : Volume}
  {total fatSectors copies : Nat}

/-! ### The contents of a volume -/

/-- The FAT entry of cluster `c`. -/
def fatEntry (img : Nat → Bytes) (v : Volume) (c : Nat) : Nat :=
  le16 (img (v.fatStart + c / 256)) (c % 256 * 2)

/-- An end-of-chain marker. -/
def endMarker (c : Nat) : Bool := decide (0xfff8 ≤ c)

/-- The clusters from `c` up to the end-of-chain marker. -/
def fatChain (img : Nat → Bytes) (v : Volume) (c : Nat) : List Nat :=
  orbit (fatEntry img v) endMarker 0x10000 c

/-- The 32 bytes of root slot `i`. -/
def rootSlot (img : Nat → Bytes) (v : Volume) (i : Nat) : Bytes :=
  fun k => img (v.rootStart + i / 16) (i % 16 * 32 + k)

/-- The slot holds a regular file: it is not deleted, and no label, long name or directory. -/
def Regular (slot : Bytes) : Prop := slot 0 ≠ 0xe5 ∧ slot 11 &&& 0x18 = 0

/-- Slot `i` is the first regular slot, before the end-of-directory marker, named `key`. -/
structure FirstNamed (img : Nat → Bytes) (v : Volume) (key : List UInt8) (i : Nat) : Prop where
  lt : i < v.rootEntries
  before_end : ∀ j ≤ i, rootSlot img v j 0 ≠ 0
  regular : Regular (rootSlot img v i)
  named : (List.range 11).map (rootSlot img v i) = key
  first : ∀ j < i, Regular (rootSlot img v j) → (List.range 11).map (rootSlot img v j) ≠ key

/-! ### The root directory -/

/-- The slot a scan from `i` returns: the first regular one, with no end marker up to it. -/
structure NextRegular (img : Nat → Bytes) (v : Volume) (i k : Nat) : Prop where
  le : i ≤ k
  lt : k < v.rootEntries
  before_end : ∀ j, i ≤ j → j ≤ k → rootSlot img v j 0 ≠ 0
  regular : Regular (rootSlot img v k)
  skipped : ∀ j, i ≤ j → j < k → ¬ Regular (rootSlot img v j)

theorem NextRegular.cons {i k : Nat} (h : NextRegular img v (i + 1) k)
    (h₀ : rootSlot img v i 0 ≠ 0) (hr : ¬ Regular (rootSlot img v i)) : NextRegular img v i k := by
  refine ⟨by have := h.le; omega, h.lt, fun j h₁ h₂ => ?_, h.regular, fun j h₁ h₂ => ?_⟩
  · rcases Nat.eq_or_lt_of_le h₁ with rfl | h₁
    · exact h₀
    · exact h.before_end j h₁ h₂
  · rcases Nat.eq_or_lt_of_le h₁ with rfl | h₁
    · exact hr
    · exact h.skipped j h₁ h₂

theorem not_regular_iff {slot : Bytes} :
    ¬ Regular slot ↔ slot 0 = 0xe5 ∨ slot 11 &&& 0x18 ≠ 0 := by
  simp only [Regular, not_and_or, not_not, ne_eq]

/-- The scan of `root_entry`.  The buffer holds the current sector except where the loop is about
to load it. -/
theorem rootEntryLoop_next (hd : Holds σ img) (g : Geometry v total fatSectors copies)
    {cursor n i : Nat} {sector : Bytes} {s : σ} {next : Nat} {entry : Bytes}
    (hn : i + n = v.rootEntries)
    (hs : i = cursor ∨ i % 16 = 0 ∨ sector = img (v.rootStart + i / 16))
    (h : (rootEntryLoop v cursor n i sector s).1 = .slot next entry) :
    ∃ k, next = k + 1 ∧ entry = rootSlot img v k ∧ NextRegular img v i k := by
  induction n generalizing i sector s with
  | zero => simp [rootEntryLoop] at h
  | succ n ih =>
      obtain ⟨hu, -, -⟩ := g.rootSector (show i < v.rootEntries by omega)
      rw [rootEntryLoop, hu] at h
      split at h
      · simp at h
      next sec s' hload =>
        -- the sector in the buffer is the image's
        have hsec : sec = img (v.rootStart + i / 16) := by
          split at hload
          · exact hd s _ _ (by rw [hload])
          · cases hload
            rcases hs with hs | hs | hs
            · omega
            · omega
            · exact hs
        subst hsec
        change (if rootSlot img v i 0 = 0 then _ else _ : RootEntry × σ).1 = _ at h
        split at h
        · simp at h
        next h₀ =>
          split at h
          next hskip =>
            have hnr : ¬ Regular (rootSlot img v i) := not_regular_iff.mpr hskip
            obtain ⟨k, hk, he, hreg⟩ := ih (i := i + 1) (by omega) (by
              by_cases e : (i + 1) % 16 = 0
              · exact .inr (.inl e)
              · exact .inr (.inr (by rw [show (i + 1) / 16 = i / 16 by omega]))) h
            exact ⟨k, hk, he, hreg.cons h₀ hnr⟩
          next hreg =>
            simp only [RootEntry.slot.injEq] at h
            obtain ⟨rfl, rfl⟩ := h
            refine ⟨i, rfl, rfl, le_refl i, by omega, fun j h₁ h₂ => ?_, ?_, fun j h₁ h₂ => ?_⟩
            · obtain rfl : i = j := by omega
              exact h₀
            · by_contra hc
              exact hreg (not_regular_iff.mp hc)
            · omega

theorem rootEntry_next (hd : Holds σ img) (g : Geometry v total fatSectors copies)
    {cursor : Nat} {s : σ} {next : Nat} {entry : Bytes}
    (h : (rootEntry v cursor s).1 = .slot next entry) :
    ∃ k, next = k + 1 ∧ entry = rootSlot img v k ∧ NextRegular img v cursor k := by
  unfold rootEntry at h
  split at h
  · simp at h
  next hc =>
    simp only [not_or, not_lt, gt_iff_lt] at hc
    exact rootEntryLoop_next hd g (by omega) (.inl rfl) h

/-- The size of an opened file is a word, on any disk. -/
theorem openEntry_size_lt {entry : Bytes} {s : σ} {file : FatFile}
    (h : (openEntry v entry s).1 = some file) : file.size < 2 ^ 32 := by
  have hword := le32_lt entry 28
  simp only [openEntry] at h
  split at h
  · obtain ⟨-, hsome⟩ := Option.ite_none_right_eq_some.mp h
    cases hsome
    exact hword
  split at h
  · cases h
  split at h
  · cases h
  · obtain ⟨-, hsome⟩ := Option.ite_none_right_eq_some.mp h
    cases hsome
    exact hword

theorem fatOpen_size_lt {name : Option (List UInt8)} {s : σ} {file : FatFile}
    (h : (fatOpen v name s).1 = some file) : file.size < 2 ^ 32 := by
  unfold fatOpen at h
  split at h
  · cases h
  split at h
  · cases h
  next key _ =>
    generalize 0 = cursor at h
    fun_induction fatOpenLoop v key cursor s with
    | case1 cursor s next entry s' hr hne ih => exact ih h
    | case2 cursor s next entry s' hr heq => exact openEntry_size_lt h
    | case3 => cases h
    | case4 => cases h

/-- The search of `fat_open`: a hit comes from the first regular slot with the key, if the slots
before the cursor were none. -/
theorem fatOpenLoop_hit (hd : Holds σ img) (g : Geometry v total fatSectors copies)
    {key : List UInt8} {cursor : Nat} {s : σ} {file : FatFile}
    (hpre : ∀ j < cursor, rootSlot img v j 0 ≠ 0)
    (hfirst : ∀ j < cursor, Regular (rootSlot img v j) →
      (List.range 11).map (rootSlot img v j) ≠ key)
    (h : (fatOpenLoop v key cursor s).1 = some file) :
    ∃ i, ∃ s' : σ, FirstNamed img v key i ∧ (openEntry v (rootSlot img v i) s').1 = some file := by
  fun_induction fatOpenLoop v key cursor s with
  | case1 cursor s next entry s' hr hne ih =>
      obtain ⟨k, rfl, rfl, hk⟩ := rootEntry_next hd g (by rw [hr])
      refine ih (fun j hj => ?_) (fun j hj hreg => ?_) h
      · by_cases e : j < cursor
        · exact hpre j e
        · exact hk.before_end j (by omega) (by omega)
      · by_cases e : j < cursor
        · exact hfirst j e hreg
        · rcases Nat.eq_or_lt_of_le (Nat.lt_succ_iff.mp hj) with rfl | hlt
          · exact hne
          · exact absurd hreg (hk.skipped j (by omega) hlt)
  | case2 cursor s next entry s' hr heq =>
      obtain ⟨k, rfl, rfl, hk⟩ := rootEntry_next hd g (by rw [hr])
      refine ⟨k, s', ⟨hk.lt, fun j hj => ?_, hk.regular, not_not.mp heq, fun j hj hreg => ?_⟩, h⟩
      · by_cases e : j < cursor
        · exact hpre j e
        · exact hk.before_end j (by omega) hj
      · by_cases e : j < cursor
        · exact hfirst j e hreg
        · exact absurd hreg (hk.skipped j (by omega) hj)
  | case3 => simp at h
  | case4 => simp at h

/-! ### The cluster chain -/

theorem nextCluster_some (hd : Holds σ img) (g : Geometry v total fatSectors copies)
    {c c' : Nat} {s : σ} (h : (nextCluster v c s).1 = some c') :
    validCluster v c = true ∧ c' = fatEntry img v c := by
  unfold nextCluster at h
  split at h
  · simp at h
  next hv =>
    have hv : validCluster v c = true := by simpa using hv
    rw [(g.fatSector hv).1] at h
    split at h
    · simp at h
    next sector s' hr =>
      have hsec : sector = img (v.fatStart + c / 256) := hd s _ _ (by rw [hr])
      simp only [Option.some.injEq] at h
      exact ⟨hv, by rw [← h, hsec]; rfl⟩

theorem followClusters_some (hd : Holds σ img) (g : Geometry v total fatSectors copies)
    {n c c' : Nat} {s : σ} (h : (followClusters v n c s).1 = some c') :
    (∀ i < n, validCluster v ((fatEntry img v)^[i] c) = true) ∧ c' = (fatEntry img v)^[n] c := by
  induction n generalizing c s with
  | zero => exact ⟨fun i hi => absurd hi (by omega), by simpa [followClusters] using h.symm⟩
  | succ n ih =>
      rw [followClusters] at h
      split at h
      · simp at h
      next c₁ s₁ hr =>
        have hn : (nextCluster v c s).1 = some c₁ := by rw [hr]
        obtain ⟨hv, rfl⟩ := nextCluster_some hd g hn
        obtain ⟨hall, he⟩ := ih h
        refine ⟨fun i hi => ?_, he⟩
        cases i with
        | zero => exact hv
        | succ i => exact hall i (by omega)

theorem not_endMarker_of_valid (g : Geometry v total fatSectors copies) {c : Nat}
    (h : validCluster v c = true) : endMarker c = false := by
  have := g.valid_iff.mp h
  simp only [endMarker, decide_eq_false_iff_not]
  omega

/-- What `fat_open` established of a file's chain, for `n` clusters from `c`. -/
structure ChainOk (img : Nat → Bytes) (v : Volume) (c n : Nat) : Prop where
  valid : ∀ i < n, validCluster v ((fatEntry img v)^[i] c) = true
  marker : 0xfff8 ≤ (fatEntry img v)^[n] c

namespace ChainOk

variable {c n : Nat}

theorem go (h : ChainOk img v c n) (g : Geometry v total fatSectors copies) :
    ∀ i < n, endMarker ((fatEntry img v)^[i] c) = false :=
  fun i hi => not_endMarker_of_valid g (h.valid i hi)

theorem halt (h : ChainOk img v c n) : endMarker ((fatEntry img v)^[n] c) = true := by
  simpa [endMarker] using h.marker

theorem chain_eq (h : ChainOk img v c n) (g : Geometry v total fatSectors copies)
    (hn : n ≤ v.clusters) : fatChain img v c = List.iterate (fatEntry img v) c n := by
  have := g.clusters_lt
  exact orbit_eq (by omega) (h.go g) h.halt

end ChainOk

/-- The number of clusters of a file of `size` bytes. -/
theorem count_eq (g : Geometry v total fatSectors copies) {size : Nat} (h₀ : 0 < size)
    (hlt : size < 2 ^ 32) :
    u32 ((unsignedDivmod (size - 1) v.clusterBytes).1 + 1) =
      (size + v.clusterBytes - 1) / v.clusterBytes := by
  have hcb := g.clusterBytes_pos
  rw [unsignedDivmod_eq (by omega) hcb]
  have e : size + v.clusterBytes - 1 = size - 1 + v.clusterBytes := by omega
  have hle : (size - 1) / v.clusterBytes ≤ size - 1 := Nat.div_le_self _ _
  rw [e, Nat.add_div_right _ hcb, u32_of_lt (by show _ + 1 < _; omega)]

/-- What `fat_open` checks of the entry it selects. -/
theorem openEntry_some (hd : Holds σ img) (g : Geometry v total fatSectors copies)
    {entry : Bytes} {s : σ} {file : FatFile} (h : (openEntry v entry s).1 = some file) :
    file = ⟨le32 entry 28, le16 entry 26⟩ ∧ (file.size = 0 → file.cluster = 0) ∧
      (0 < file.size → (file.size + v.clusterBytes - 1) / v.clusterBytes ≤ v.clusters ∧
        ChainOk img v file.cluster ((file.size + v.clusterBytes - 1) / v.clusterBytes)) := by
  unfold openEntry at h
  simp only at h
  split at h
  next h₀ =>
    split at h
    next hc =>
      simp only [Option.some.injEq] at h
      subst h
      exact ⟨rfl, fun _ => hc, fun hp => absurd h₀ (by simpa using hp.ne')⟩
    next => simp at h
  next h₀ =>
    rw [count_eq g (Nat.pos_of_ne_zero h₀) (le32_lt entry 28)] at h
    split at h
    · simp at h
    next hcount =>
      split at h
      · simp at h
      next c' s' hr =>
        split at h
        next hm =>
          simp only [Option.some.injEq] at h
          subst h
          obtain ⟨hall, rfl⟩ := followClusters_some hd g (by rw [hr])
          exact ⟨rfl, fun e => absurd e h₀, fun _ => ⟨by simpa using hcount, hall, hm⟩⟩
        next => simp at h

theorem fatOpen_some (hd : Holds σ img) (g : Geometry v total fatSectors copies)
    {name : Option (List UInt8)} {s : σ} {file : FatFile}
    (h : (fatOpen v name s).1 = some file) :
    ∃ key i, ∃ s' : σ, shortName name = some key ∧ FirstNamed img v key i ∧
      (openEntry v (rootSlot img v i) s').1 = some file := by
  unfold fatOpen at h
  split at h
  · simp at h
  · split at h
    · simp at h
    next key hkey =>
      obtain ⟨i, s', hi, hopen⟩ := fatOpenLoop_hit hd g (fun j hj => absurd hj (by omega))
        (fun j hj => absurd hj (by omega)) h
      exact ⟨key, i, s', hkey, hi, hopen⟩

/-- **Opening is sound.**  On a mounted volume with fixed contents, a file `fat_open` returns
comes from the first regular slot, before the end marker, whose 11 bytes are the padded key.  Its
chain has `ceil (size / cluster_bytes)` clusters, all valid and pairwise distinct, and the entry
after the last is an end marker; an empty file has first cluster 0. -/
theorem fatOpen_sound (hd : Holds σ img) {v₀ : Volume} {s₀ s₁ : σ}
    (hm : fatInit v₀ s₀ = (true, v, s₁)) {name : Option (List UInt8)} {s : σ} {file : FatFile}
    (h : (fatOpen v name s).1 = some file) :
    (∃ key i, shortName name = some key ∧ FirstNamed img v key i ∧
      file = ⟨le32 (rootSlot img v i) 28, le16 (rootSlot img v i) 26⟩) ∧
    (file.size = 0 → file.cluster = 0) ∧
    (0 < file.size →
      (fatChain img v file.cluster).length =
        (file.size + v.clusterBytes - 1) / v.clusterBytes ∧
      (∀ i (hi : i < (fatChain img v file.cluster).length),
        (fatChain img v file.cluster)[i] = (fatEntry img v)^[i] file.cluster) ∧
      (∀ c ∈ fatChain img v file.cluster, validCluster v c = true) ∧
      (fatChain img v file.cluster).Nodup ∧
      0xfff8 ≤ (fatEntry img v)^[(fatChain img v file.cluster).length] file.cluster) := by
  obtain ⟨total, fatSectors, copies, g, -⟩ := fatInit_geometry hm
  obtain ⟨key, i, s', hkey, hi, hopen⟩ := fatOpen_some hd g h
  obtain ⟨hfile, hzero, hpos⟩ := openEntry_some hd g hopen
  refine ⟨⟨key, i, hkey, hi, hfile⟩, hzero, fun hp => ?_⟩
  obtain ⟨hle, hok⟩ := hpos hp
  have hchain := hok.chain_eq g hle
  refine ⟨by rw [hchain, List.length_iterate], fun i hi => ?_, fun c hc => ?_, ?_, ?_⟩
  · simp only [hchain, List.getElem_iterate]
  · rw [hchain, List.mem_iterate] at hc
    obtain ⟨i, hi, rfl⟩ := hc
    exact hok.valid i hi
  · rw [hchain]
    exact iterate_nodup (hok.go g) hok.halt
  · rw [hchain, List.length_iterate]
    exact hok.marker

/-- The bytes of `shell`. -/
def shellName : List UInt8 := [115, 104, 101, 108, 108]

theorem fatOpen_shellDisk :
    (fatOpen shellVolume (some shellName) (⟨⟩ : shellDisk.Reader)).1 = some ⟨88, 2⟩ := by
  have hroot : rootEntry shellVolume 0 (⟨⟩ : shellDisk.Reader) =
      (.slot 1 (rootSlot shellDisk.bytes shellVolume 0), ⟨⟩) := rfl
  have hkey : shortName (some shellName) = some [83, 72, 69, 76, 76, 32, 32, 32, 32, 32, 32] := by
    decide
  rw [fatOpen, if_neg (by decide), hkey]
  simp only
  rw [fatOpenLoop]
  split
  next next entry s' hr =>
    rw [hroot] at hr
    cases hr
    rfl
  next hr => rw [hroot] at hr; cases hr
  next hr => rw [hroot] at hr; cases hr

/-- `fatOpen_sound` at `shell` on `shellDisk`: one valid cluster, then the marker. -/
theorem fatOpen_sound_shell :
    (fatChain shellDisk.bytes shellVolume 2).length = 1 ∧
      (∀ c ∈ fatChain shellDisk.bytes shellVolume 2, validCluster shellVolume c = true) ∧
      0xfff8 ≤ (fatEntry shellDisk.bytes shellVolume)^[
        (fatChain shellDisk.bytes shellVolume 2).length] 2 := by
  obtain ⟨-, -, h⟩ := fatOpen_sound shellDisk.serves.holds fatInit_shellDisk fatOpen_shellDisk
  obtain ⟨hlen, -, hvalid, -, hmark⟩ := h (by decide)
  exact ⟨hlen, hvalid, hmark⟩

end Arunos
