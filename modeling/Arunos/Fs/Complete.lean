import Arunos.Fs.Names
import Arunos.Fs.Read
import Mathlib.Data.Finset.Card
import Mathlib.Order.Interval.Finset.Nat

/-!
# Fs — Complete — which files `fat_open` finds

A file in the root directory is well formed when its name is a legal 8.3 name and its chain has
`ceil (size / cluster_bytes)` different data clusters and ends with a marker (`FileChain`).  On a
disk that serves every sector, the search of `fat_open` reaches the first entry with the name
(`fatOpenLoop_reaches`), in whatever letter case the name is given (`shortName_spells`).

`fat_init` accepts volumes of up to 65524 clusters, with numbers up to `0xfff5`; `valid_cluster`
refuses the numbers from `0xfff0` on.  So a well-formed file opens exactly when its chain stays
below `0xfff0`.
-/

namespace Arunos

variable {σ : Type} [BlockDevice σ] {img : Nat → Bytes} {v : Volume}
  {total fatSectors copies : Nat}

/-! ### Names -/

/-- The characters of an upper-case short name. -/
def legalChar (ch : UInt8) : Bool :=
  decide (65 ≤ ch ∧ ch ≤ 90) || decide (48 ≤ ch ∧ ch ≤ 57) ||
    [33, 35, 36, 37, 38, 39, 40, 41, 45, 64, 94, 95, 96, 123, 125, 126].contains ch

/-- A legal upper-case 8.3 name. -/
structure LegalName (base ext : List UInt8) : Prop where
  base_ne : base ≠ []
  base_le : base.length ≤ 8
  ext_le : ext.length ≤ 3
  base_chars : ∀ ch ∈ base, legalChar ch = true
  ext_chars : ∀ ch ∈ ext, legalChar ch = true

/-- The eleven bytes of a name on disk. -/
def paddedName (base ext : List UInt8) : List UInt8 :=
  base ++ List.replicate (8 - base.length) 32 ++ (ext ++ List.replicate (3 - ext.length) 32)

/-- A spelling of a name, in any letter case. -/
inductive Spells : List UInt8 → List UInt8 → List UInt8 → Prop where
  | plain {name base : List UInt8} (eq : name.map upperCase = base) : Spells name base []
  | dotted {name base suffix ext : List UInt8} (eq : name.map upperCase = base)
      (ext_eq : suffix.map upperCase = ext) (ne : ext ≠ []) :
      Spells (name ++ 46 :: suffix) base ext

/-- The characters of legal names are characters of 8.3 names, in either case. -/
theorem legal_of_legalChar {ch : UInt8} (h : legalChar (upperCase ch) = true) : Legal ch := by
  have hall : ∀ n < 256, legalChar (upperCase (UInt8.ofNat n)) = true → Legal (UInt8.ofNat n) := by
    decide +kernel
  have hch := hall ch.toNat ch.toNat_lt
  rw [UInt8.ofNat_toNat] at hch
  exact hch h

theorem LegalName.parts {base ext : List UInt8}
    (h : LegalName (base.map upperCase) (ext.map upperCase)) : Parts base ext := by
  obtain ⟨hne, hbase, hext, hb, he⟩ := h
  rw [List.length_map] at hbase hext
  refine ⟨List.length_pos_iff.mpr (by simpa using hne), hbase, hext, ?_, ?_⟩
  · exact fun ch hch => legal_of_legalChar (hb _ (List.mem_map_of_mem hch))
  · exact fun ch hch => legal_of_legalChar (he _ (List.mem_map_of_mem hch))

/-- **`short_name`** makes of any spelling the padded upper-case name. -/
theorem shortName_spells {name base ext : List UInt8} (hlegal : LegalName base ext)
    (h : Spells name base ext) : shortName (some name) = some (paddedName base ext) := by
  cases h with
  | plain eq =>
      subst eq
      have hparts : Parts name [] := LegalName.parts hlegal
      have hname : joinName name [] = name := List.append_nil name
      rw [← hname, hparts.shortName, hname]
      rfl
  | @dotted name _ suffix _ eq ext_eq ne =>
      subst eq ext_eq
      have hne : suffix ≠ [] := by simpa using ne
      have hname : joinName name suffix = name ++ 46 :: suffix := by rw [joinName, if_neg hne]
      rw [← hname, hlegal.parts.shortName]
      rfl

/-! ### The root directory -/

/-- The scan of `root_entry` finds a regular slot, if one comes before the end marker. -/
theorem rootEntryLoop_finds {n : Nat} (hd : Serves σ img n)
    (g : Geometry v total fatSectors copies) (ht : total ≤ n) {cursor k i j : Nat}
    (sector : Bytes) (s : σ) (hk : j + k = v.rootEntries) (hj : j ≤ i) (hi : i < v.rootEntries)
    (hs : j = cursor ∨ j % 16 = 0 ∨ sector = img (v.rootStart + j / 16))
    (hend : ∀ l, j ≤ l → l ≤ i → rootSlot img v l 0 ≠ 0) (hreg : Regular (rootSlot img v i)) :
    ∃ next entry, (rootEntryLoop v cursor k j sector s).1 = .slot next entry ∧ next ≤ i + 1 := by
  induction k generalizing j sector s with
  | zero => omega
  | succ k ih =>
      obtain ⟨hu, -, hlt⟩ := g.rootSector (show j < v.rootEntries by omega)
      -- the sector is in the buffer, or is loaded now
      obtain ⟨s', hload⟩ : ∃ s', (if j = cursor ∨ j % 16 = 0 then
          blockRead s (v.rootStart + j / 16) else (some sector, s)) =
            (some (img (v.rootStart + j / 16)), s') := by
        split
        · exact ⟨_, hd.read_eq s (by omega)⟩
        next hno =>
          rw [not_or] at hno
          rw [(hs.resolve_left hno.1).resolve_left hno.2]
          exact ⟨s, rfl⟩
      rw [rootEntryLoop, hu, hload]
      change ∃ next entry, (if rootSlot img v j 0 = 0 then _ else _ : RootEntry × σ).1 =
        .slot next entry ∧ _
      rw [if_neg (hend j le_rfl hj)]
      split
      next hskip =>
        have hne : j ≠ i := by
          rintro rfl
          exact not_regular_iff.mpr hskip hreg
        refine ih _ _ (by omega) (by omega) ?_ fun l hl => hend l (by omega)
        by_cases e : (j + 1) % 16 = 0
        · exact .inr (.inl e)
        · exact .inr (.inr (by rw [show (j + 1) / 16 = j / 16 by omega]))
      next => exact ⟨j + 1, _, rfl, by omega⟩

theorem rootEntry_finds {n : Nat} (hd : Serves σ img n) (g : Geometry v total fatSectors copies)
    (ht : total ≤ n) {cursor i : Nat} (s : σ) (hc : cursor ≤ i) (hi : i < v.rootEntries)
    (hend : ∀ l ≤ i, rootSlot img v l 0 ≠ 0) (hreg : Regular (rootSlot img v i)) :
    ∃ k, (rootEntry v cursor s).1 = .slot (k + 1) (rootSlot img v k) ∧ k ≤ i ∧
      NextRegular img v cursor k := by
  have hentry : rootEntry v cursor s =
      rootEntryLoop v cursor (v.rootEntries - cursor) cursor (fun _ => 0) s := by
    rw [rootEntry, if_neg (by simp [g.mounted]; omega)]
  obtain ⟨next, entry, hslot, hle⟩ := rootEntryLoop_finds hd g ht (fun _ => 0) s
    (Nat.add_sub_cancel' (hc.trans hi.le)) hc hi (.inl rfl) (fun l _ => hend l) hreg
  rw [← hentry] at hslot
  obtain ⟨k, rfl, rfl, hk⟩ := rootEntry_next hd.holds g hslot
  exact ⟨k, hslot, by omega, hk⟩

/-- The search of `fat_open` reaches the first regular slot with the name. -/
theorem fatOpenLoop_reaches {n : Nat} (hd : Serves σ img n)
    (g : Geometry v total fatSectors copies) (ht : total ≤ n) {key : List UInt8} {cursor i : Nat}
    {s : σ} (hc : cursor ≤ i) (hi : FirstNamed img v key i) :
    ∃ s' : σ, (fatOpenLoop v key cursor s).1 = (openEntry v (rootSlot img v i) s').1 := by
  have hfinds : ∀ (s : σ) {cursor : Nat}, cursor ≤ i → ∃ k, (rootEntry v cursor s).1 =
      .slot (k + 1) (rootSlot img v k) ∧ k ≤ i ∧ NextRegular img v cursor k :=
    fun s _ hc => rootEntry_finds hd g ht s hc hi.lt hi.before_end hi.regular
  fun_induction fatOpenLoop v key cursor s with
  | case1 cursor s next entry s' hr hne ih =>
      obtain ⟨k, hslot, hk, -⟩ := hfinds s hc
      rw [hr] at hslot
      cases hslot
      have hki : k ≠ i := by
        rintro rfl
        exact hne hi.named
      exact ih (by omega)
  | case2 cursor s next entry s' hr heq =>
      obtain ⟨k, hslot, hk, hnext⟩ := hfinds s hc
      rw [hr] at hslot
      cases hslot
      obtain rfl : k = i := by
        by_contra hki
        exact hi.first k (by omega) hnext.regular (not_not.mp heq)
      exact ⟨s', rfl⟩
  | case3 cursor s s' hr =>
      obtain ⟨k, hslot, -⟩ := hfinds s hc
      rw [hr] at hslot
      cases hslot
  | case4 cursor s s' hr =>
      obtain ⟨k, hslot, -⟩ := hfinds s hc
      rw [hr] at hslot
      cases hslot

/-! ### The chain -/

/-- The clusters of a file that starts at `first`: different data clusters of the volume, each the
FAT entry of the one before, and a marker after the last. -/
structure FileChain (img : Nat → Bytes) (v : Volume) (first : Nat) (chain : List Nat) : Prop where
  follows : chain = List.iterate (fatEntry img v) first chain.length
  data : ∀ c ∈ chain, 2 ≤ c ∧ c ≤ v.clusters + 1
  nodup : chain.Nodup
  marker : 0xfff8 ≤ (fatEntry img v)^[chain.length] first

theorem FileChain.length_le {first : Nat} {chain : List Nat} (h : FileChain img v first chain) :
    chain.length ≤ v.clusters := by
  have hsub : chain.toFinset ⊆ Finset.Icc 2 (v.clusters + 1) := fun c hc =>
    Finset.mem_Icc.mpr (h.data c (List.mem_toFinset.mp hc))
  have hcard := Finset.card_le_card hsub
  rwa [List.toFinset_card_of_nodup h.nodup, Nat.card_Icc, Nat.add_sub_add_right] at hcard

theorem FileChain.valid_iff (g : Geometry v total fatSectors copies) {first : Nat}
    {chain : List Nat} (h : FileChain img v first chain) :
    (∀ i < chain.length, validCluster v ((fatEntry img v)^[i] first) = true) ↔
      ∀ c ∈ chain, c < 0xfff0 := by
  have hmem : ∀ c, c ∈ chain ↔ ∃ i < chain.length, c = (fatEntry img v)^[i] first := fun c => by
    rw [h.follows, List.mem_iterate, List.length_iterate]
  constructor
  · intro hall c hc
    obtain ⟨i, hi, rfl⟩ := (hmem c).mp hc
    exact (g.valid_iff.mp (hall i hi)).2.2
  · intro hlow i hi
    have hc := (hmem _).mpr ⟨i, hi, rfl⟩
    have := h.data _ hc
    exact g.valid_iff.mpr ⟨this.1, by omega, hlow _ hc⟩

/-- What `fat_open` does at the entry of a well-formed file. -/
theorem openEntry_chain {n : Nat} (hd : Serves σ img n) (g : Geometry v total fatSectors copies)
    (ht : total ≤ n) {entry : Bytes} {chain : List Nat} (hsize : 0 < le32 entry 28)
    (hchain : FileChain img v (le16 entry 26) chain)
    (hlen : chain.length = (le32 entry 28 + v.clusterBytes - 1) / v.clusterBytes) (s : σ) :
    (openEntry v entry s).1 = some ⟨le32 entry 28, le16 entry 26⟩ ↔ ∀ c ∈ chain, c < 0xfff0 := by
  constructor
  · intro hopen
    obtain ⟨-, -, hpos⟩ := openEntry_some hd.holds g hopen
    refine (hchain.valid_iff g).mp ?_
    rw [hlen]
    exact (hpos hsize).2.valid
  · intro hlow
    have hfollow := followClusters_of_valid hd g ht ((hchain.valid_iff g).mpr hlow) s
    have hcount := hchain.length_le
    have hmark := hchain.marker
    rw [hlen] at hfollow hcount hmark
    unfold openEntry
    simp only
    rw [if_neg hsize.ne', count_eq g hsize (le32_lt entry 28), if_neg (by omega)]
    split
    next hr => rw [hr] at hfollow; cases hfollow
    next c s' hr =>
      rw [hr] at hfollow
      cases Option.some.inj hfollow
      rw [if_pos hmark]

/-- **Which files open.**  On a volume that `fat_init` accepts, from a disk that serves all its
sectors, take a well-formed file: the first regular entry with a legal name, before the end marker,
of positive size, with a chain of as many clusters as the size needs.  Then `fat_open`, with any
spelling of the name, returns the entry's size and first cluster exactly if no cluster of the chain
is numbered `0xfff0` or above. -/
theorem fatOpen_complete_iff {n : Nat} (hd : Serves σ img n) {v₀ : Volume} {s₀ s₁ : σ}
    (hm : fatInit v₀ s₀ = (true, v, s₁)) {base ext name : List UInt8}
    (hlegal : LegalName base ext) (hname : Spells name base ext) {i : Nat}
    (hi : FirstNamed img v (paddedName base ext) i) (hsize : 0 < le32 (rootSlot img v i) 28)
    {chain : List Nat} (hchain : FileChain img v (le16 (rootSlot img v i) 26) chain)
    (hlen : chain.length =
      (le32 (rootSlot img v i) 28 + v.clusterBytes - 1) / v.clusterBytes) (s : σ) :
    (fatOpen v (some name) s).1 =
        some ⟨le32 (rootSlot img v i) 28, le16 (rootSlot img v i) 26⟩ ↔
      ∀ c ∈ chain, c < 0xfff0 := by
  obtain ⟨total, fatSectors, copies, g, hle⟩ := fatInit_geometry hm
  rw [hd.count] at hle
  obtain ⟨s', hreach⟩ := fatOpenLoop_reaches hd g hle (s := s) (Nat.zero_le i) hi
  rw [fatOpen, if_neg (by simp [g.mounted]), shortName_spells hlegal hname]
  simp only
  rw [hreach]
  exact openEntry_chain hd g hle hsize hchain hlen s'

/-- `shell` on `shellDisk` opens. -/
theorem fatOpen_complete_shell :
    (fatOpen shellVolume (some shellName) (⟨⟩ : shellDisk.Reader)).1 = some ⟨88, 2⟩ := by
  have hi : FirstNamed shellDisk.bytes shellVolume (paddedName [83, 72, 69, 76, 76] []) 0 :=
    ⟨by decide, by decide, ⟨by decide, by decide⟩, by decide, fun j hj => absurd hj (by omega)⟩
  have hchain : FileChain shellDisk.bytes shellVolume 2 [2] :=
    ⟨rfl, by decide, by decide, by decide⟩
  exact (fatOpen_complete_iff shellDisk.serves fatInit_shellDisk
    ⟨by decide, by decide, by decide, List.all_eq_true.mp rfl, List.all_eq_true.mp rfl⟩
    (.plain (by decide)) hi (by decide) hchain (by decide) ⟨⟩).mpr (by decide)

/-! ### A large volume -/

/-- A volume of 65519 one-sector clusters with the one file `A`, of one byte in the last cluster,
number `0xfff0`. -/
def largeDisk : Image where
  sectors := 65777
  bytes
    | 0 => fun i => ([(12, 2), (13, 1), (14, 1), (16, 1), (17, 16), (23, 1), (32, 0xf1), (34, 1),
        (510, 0x55), (511, 0xaa)].lookup i).getD 0
    | 256 => fun i => ([(480, 0xff), (481, 0xff)].lookup i).getD 0
    | 257 => fun i => [65, 32, 32, 32, 32, 32, 32, 32, 32, 32, 32, 0x20, 0, 0, 0, 0,
        0, 0, 0, 0, 0, 0, 0, 0, 0, 0, 0xf0, 0xff, 1, 0, 0, 0].getD i 0
    | _ => fun _ => 0

/-- The static variables after mounting `largeDisk`. -/
def largeVolume : Volume := ⟨1, 257, 258, 65519, 512, 16, 1, true⟩

theorem fatInit_largeDisk :
    fatInit Volume.zero (⟨⟩ : largeDisk.Reader) = (true, largeVolume, ⟨⟩) := by
  decide +kernel

/-- `A` on `largeDisk` is well formed, and does not open. -/
theorem fatOpen_misses_last_cluster :
    Serves largeDisk.Reader largeDisk.bytes 65777 ∧
    fatInit Volume.zero (⟨⟩ : largeDisk.Reader) = (true, largeVolume, ⟨⟩) ∧
    LegalName [65] [] ∧ Spells [65] [65] [] ∧
    FirstNamed largeDisk.bytes largeVolume (paddedName [65] []) 0 ∧
    le32 (rootSlot largeDisk.bytes largeVolume 0) 28 = 1 ∧
    le16 (rootSlot largeDisk.bytes largeVolume 0) 26 = 0xfff0 ∧
    FileChain largeDisk.bytes largeVolume 0xfff0 [0xfff0] ∧
    (1 + largeVolume.clusterBytes - 1) / largeVolume.clusterBytes = 1 ∧
    (fatOpen largeVolume (some [65]) (⟨⟩ : largeDisk.Reader)).1 = none := by
  refine ⟨largeDisk.serves, fatInit_largeDisk,
    ⟨by decide, by decide, by decide, List.all_eq_true.mp rfl, List.all_eq_true.mp rfl⟩,
    .plain (by decide),
    ⟨by decide, by decide, ⟨by decide, by decide⟩, by decide, fun j hj => absurd hj (by omega)⟩,
    by decide, by decide, ⟨rfl, by decide, by decide, by decide⟩, by decide, ?_⟩
  have hroot : rootEntry largeVolume 0 (⟨⟩ : largeDisk.Reader) =
      (.slot 1 (rootSlot largeDisk.bytes largeVolume 0), ⟨⟩) := rfl
  have hkey : shortName (some [65]) = some [65, 32, 32, 32, 32, 32, 32, 32, 32, 32, 32] := by
    decide
  rw [fatOpen, if_neg (by decide), hkey]
  simp only
  rw [fatOpenLoop]
  split
  next next entry s' hr =>
    rw [hroot] at hr
    cases hr
    rfl
  next hr => rw [hroot] at hr
  next hr => rw [hroot] at hr

end Arunos
