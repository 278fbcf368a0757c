import Arunos.Fs.Fat

/-!
# Fs — Mount — what a successful `fat_init` guarantees

`Geometry v total fatSectors copies` collects what the checks of `fat_init` establish of the
static variables: the reserved area, the FAT copies, the root directory and the data area follow
one another inside `total` sectors, and the FAT has an entry for every cluster.  The sector
numbers the reader computes are then below `total`, with no 32-bit wrap-around.

`shellDisk` is a smallest FAT16 volume, of 4085 one-sector clusters, with the one root file
`SHELL`: an ELF of 88 bytes that loads itself at address 0.
-/

namespace Arunos

variable {σ : Type} [BlockDevice σ]

/-- The layout of a mounted volume of `total` sectors with `copies` FATs of `fatSectors`. -/
structure Geometry (v : Volume) (total fatSectors copies : Nat) : Prop where
  mounted : v.mounted = true
  spc_pos : 0 < v.sectorsPerCluster
  spc_le : v.sectorsPerCluster ≤ 128
  clusterBytes : v.clusterBytes = v.sectorsPerCluster * 512
  fatStart_pos : 0 < v.fatStart
  fatStart_lt : v.fatStart < 2 ^ 16
  copies_pos : 0 < copies
  copies_le : copies ≤ 2
  fatSectors_lt : fatSectors < 2 ^ 16
  rootStart : v.rootStart = v.fatStart + copies * fatSectors
  rootEntries_lt : v.rootEntries < 2 ^ 16
  dataStart : v.dataStart = v.rootStart + (v.rootEntries * 32 + 511) / 512
  data_le : v.dataStart + v.clusters * v.sectorsPerCluster ≤ total
  clusters_ge : 4085 ≤ v.clusters
  clusters_lt : v.clusters < 65525
  fat_holds : v.clusters + 2 ≤ fatSectors * 256
  total_lt : total < 2 ^ 32

theorem totalSectors_lt (b : Bytes) : totalSectors b < 2 ^ 32 := by
  unfold totalSectors
  split
  · exact le32_lt b 32
  · exact (le16_lt b 19).trans (by decide)

/-- The static variables as the boot sector `b` gives them. -/
structure Volume.Of (v : Volume) (b : Bytes) : Prop where
  sectorsPerCluster : v.sectorsPerCluster = (b 13).toNat
  /-- A power of two. -/
  spc_power : (b 13).toNat &&& ((b 13).toNat - 1) = 0
  fatStart : v.fatStart = le16 b 14
  rootEntries : v.rootEntries = le16 b 17
  copies : b 16 = 1 ∨ b 16 = 2
  clusters : v.clusters = (totalSectors b - v.dataStart) / (b 13).toNat

/-- What `fat_init` accepts: the boot sector gives the static variables, and its areas fit. -/
theorem fatInit_boot {v₀ v : Volume} {s₀ s : σ} (h : fatInit v₀ s₀ = (true, v, s)) :
    ∃ b, (blockRead s₀ 0).1 = some b ∧ v.Of b ∧
      Geometry v (totalSectors b) (le16 b 22) (b 16).toNat ∧
      totalSectors b ≤ blockSectorCount s := by
  unfold fatInit at h
  simp only at h
  split at h
  · simp at h
  next b s₁ hread =>
    split at h
    · simp at h
    split at h
    · simp at h
    next hok =>
      simp only [not_or, not_and, not_lt, ne_eq, not_not, gt_iff_lt] at hok
      obtain ⟨h13, h128, hpower, h14, h17, h22, h16, htot⟩ := hok
      have b14 := le16_lt b 14
      have b17 := le16_lt b 17
      have b22 := le16_lt b 22
      have hcopies : b 16 = 1 ∨ b 16 = 2 := or_iff_not_imp_left.mpr h16
      have hcount : (b 16).toNat = 1 ∨ (b 16).toNat = 2 := by
        rcases hcopies with e | e <;> simp [e]
      -- the sums stay below 2 ^ 18, so the reductions to 32 bits change nothing
      have hroot : u32 (le16 b 14 + (b 16).toNat * le16 b 22) =
          le16 b 14 + (b 16).toNat * le16 b 22 := by
        refine u32_of_lt ?_
        rcases hcount with e | e <;> rw [e] <;> omega
      have hdata : u32 (le16 b 14 + (b 16).toNat * le16 b 22 + (le16 b 17 * 32 + 511) / 512) =
          le16 b 14 + (b 16).toNat * le16 b 22 + (le16 b 17 * 32 + 511) / 512 := by
        refine u32_of_lt ?_
        rcases hcount with e | e <;> rw [e] <;> omega
      rw [hroot, hdata] at h
      have htotlt := totalSectors_lt b
      refine ⟨b, congrArg Prod.fst hread, ?_⟩
      generalize htotal : totalSectors b = total at h htot htotlt
      generalize hds : le16 b 14 + (b 16).toNat * le16 b 22 +
        (le16 b 17 * 32 + 511) / 512 = dataStart at h
      split at h
      · simp at h
      next hlt =>
        rw [unsignedDivmod_eq (show total - dataStart < 2 ^ 32 by omega) (by omega)] at h
        split at h
        · simp at h
        next hcl =>
          simp only [not_or, not_lt, ge_iff_le, not_le, gt_iff_lt] at hcl
          obtain ⟨hc₁, hc₂, hc₃⟩ := hcl
          rw [u32_of_lt (by omega), u32_of_lt (by omega)] at hc₃
          simp only [Prod.mk.injEq, true_and] at h
          obtain ⟨rfl, rfl⟩ := h
          have hmul : (total - dataStart) / (b 13).toNat * (b 13).toNat ≤ total - dataStart :=
            Nat.div_mul_le_self _ _
          refine ⟨⟨rfl, hpower, rfl, rfl, hcopies, by rw [htotal]⟩, ?_, htot⟩
          exact {
            mounted := rfl, spc_pos := by simpa using Nat.pos_of_ne_zero h13
            spc_le := by simpa using h128, clusterBytes := rfl
            fatStart_pos := Nat.pos_of_ne_zero h14, fatStart_lt := b14
            copies_pos := by omega, copies_le := by omega, fatSectors_lt := b22
            rootStart := rfl, rootEntries_lt := b17, dataStart := hds.symm
            data_le := by
              show dataStart + (total - dataStart) / (b 13).toNat * (b 13).toNat ≤ total
              omega
            clusters_ge := hc₁, clusters_lt := hc₂, fat_holds := hc₃, total_lt := htotlt }

theorem fatInit_geometry {v₀ v : Volume} {s₀ s : σ} (h : fatInit v₀ s₀ = (true, v, s)) :
    ∃ total fatSectors copies, Geometry v total fatSectors copies ∧
      total ≤ blockSectorCount s := by
  obtain ⟨b, -, -, hg, hle⟩ := fatInit_boot h
  exact ⟨_, _, _, hg, hle⟩

namespace Geometry

variable {v : Volume} {total fatSectors copies : Nat}

theorem clusterBytes_pos (g : Geometry v total fatSectors copies) : 0 < v.clusterBytes := by
  rw [g.clusterBytes]
  have := g.spc_pos
  omega

theorem valid_iff (g : Geometry v total fatSectors copies) {c : Nat} :
    validCluster v c = true ↔ 2 ≤ c ∧ c < v.clusters + 2 ∧ c < 0xfff0 := by
  have := g.clusters_lt
  simp only [validCluster, u32_of_lt (show v.clusters + 2 < 2 ^ 32 by omega), ge_iff_le,
    Bool.and_eq_true, decide_eq_true_eq, and_assoc]

/-- The FAT sector of a valid cluster, which lies in the first copy. -/
theorem fatSector (g : Geometry v total fatSectors copies) {c : Nat}
    (h : validCluster v c = true) :
    u32 (v.fatStart + c / 256) = v.fatStart + c / 256 ∧
      v.fatStart + c / 256 < v.fatStart + fatSectors ∧ v.fatStart + c / 256 < total := by
  obtain ⟨-, h₂, -⟩ := g.valid_iff.mp h
  have h₁ := g.fatStart_lt
  have h₃ := g.fat_holds
  have h₄ := g.fatSectors_lt
  have h₅ := g.data_le
  have h₆ := g.dataStart
  have h₇ := g.rootStart
  have h₈ : fatSectors ≤ copies * fatSectors := Nat.le_mul_of_pos_left _ g.copies_pos
  exact ⟨u32_of_lt (by omega), by omega, by omega⟩

/-- The root sector of slot `i`. -/
theorem rootSector (g : Geometry v total fatSectors copies) {i : Nat} (h : i < v.rootEntries) :
    u32 (v.rootStart + i / 16) = v.rootStart + i / 16 ∧ v.rootStart + i / 16 < v.dataStart ∧
      v.rootStart + i / 16 < total := by
  have h₁ := g.total_lt
  have h₅ := g.data_le
  have h₆ := g.dataStart
  exact ⟨u32_of_lt (by omega), by omega, by omega⟩

/-- Sector `k` of the data of a valid cluster. -/
theorem dataSector (g : Geometry v total fatSectors copies) {c k : Nat}
    (h : validCluster v c = true) (hk : k < v.sectorsPerCluster) :
    u32 (v.dataStart + (c - 2) * v.sectorsPerCluster + k) =
        v.dataStart + (c - 2) * v.sectorsPerCluster + k ∧
      v.dataStart + (c - 2) * v.sectorsPerCluster + k < total := by
  obtain ⟨h₁, h₂, -⟩ := g.valid_iff.mp h
  have h₃ : (c - 2 + 1) * v.sectorsPerCluster ≤ v.clusters * v.sectorsPerCluster :=
    Nat.mul_le_mul_right _ (by omega)
  rw [Nat.add_mul, Nat.one_mul] at h₃
  have h₄ := g.data_le
  have h₅ := g.total_lt
  exact ⟨u32_of_lt (by omega), by omega⟩

end Geometry

/-! ### A small volume -/

/-- An 88-byte ARM executable: the header, one loadable segment covering the file, and one
instruction at its entry 84. -/
def shellElf : List UInt8 :=
  [0x7f, 0x45, 0x4c, 0x46, 1, 1, 1, 0, 0, 0, 0, 0, 0, 0, 0, 0,
   2, 0, 40, 0, 1, 0, 0, 0, 84, 0, 0, 0, 52, 0, 0, 0,
   0, 0, 0, 0, 0, 0, 0, 0, 52, 0, 32, 0, 1, 0, 0, 0, 0, 0, 0, 0,
   1, 0, 0, 0, 0, 0, 0, 0, 0, 0, 0, 0, 0, 0, 0, 0, 88, 0, 0, 0, 88, 0, 0, 0, 5, 0, 0, 0, 0, 0, 0, 0,
   0xfe, 0xff, 0xff, 0xea]

/-- The same with the entry 88, which is past the end of its one segment. -/
def badElf : List UInt8 := shellElf.set 24 88

/-- The boot sector, FAT, root directory and data of a volume with the files `SHELL` and `BAD`. -/
def shellDisk : Image where
  sectors := 4103
  bytes
    | 0 => fun i => ([(12, 2), (13, 1), (14, 1), (16, 1), (17, 16), (19, 0x07), (20, 0x10),
        (22, 16), (510, 0x55), (511, 0xaa)].lookup i).getD 0
    | 1 => fun i => [0xf8, 0xff, 0xff, 0xff, 0xff, 0xff, 0xff, 0xff].getD i 0
    | 17 => fun i => [83, 72, 69, 76, 76, 32, 32, 32, 32, 32, 32, 0x20, 0, 0, 0, 0,
        0, 0, 0, 0, 0, 0, 0, 0, 0, 0, 2, 0, 88, 0, 0, 0,
        66, 65, 68, 32, 32, 32, 32, 32, 32, 32, 32, 0x20, 0, 0, 0, 0,
        0, 0, 0, 0, 0, 0, 0, 0, 0, 0, 3, 0, 88, 0, 0, 0].getD i 0
    | 18 => fun i => shellElf.getD i 0
    | 19 => fun i => badElf.getD i 0
    | _ => fun _ => 0

/-- The static variables after mounting `shellDisk`. -/
def shellVolume : Volume := ⟨1, 17, 18, 4085, 512, 16, 1, true⟩

theorem fatInit_shellDisk :
    fatInit Volume.zero (⟨⟩ : shellDisk.Reader) = (true, shellVolume, ⟨⟩) := by
  decide +kernel

end Arunos
