import Arunos.Fs.Mount
import Mathlib.Order.CompletePartialOrder
import Mathlib.Order.Interval.Set.Disjoint

/-!
# Fs — Areas — the sectors of a mounted volume

`fat_init` may run any number of times, on any disks, and overwrites the static variables before it
has checked them (`Mounts`).  Whenever they say `mounted`, the reserved sectors, the FATs, the root
directory and the data follow one another on the disk of the last mount, and every sector number
the reader computes from a valid cluster or a root slot is in its own area (`Areas`).  After a mount
that failed nothing can be opened, listed or read.
-/

namespace Arunos

variable {v : Volume} {total fatSectors copies : Nat}

/-- The static variables after some calls of `fat_init`, each on a disk of its own; and, if the last
call returned true, the sector count of the disk and the boot sector that the call has read. -/
inductive Mounts : Volume → Option (Nat × Bytes) → Prop where
  | start : Mounts Volume.zero none
  | init {v : Volume} {last : Option (Nat × Bytes)} {σ : Type} [BlockDevice σ] (s : σ)
      (before : Mounts v last) :
      Mounts (fatInit v s).2.1
        (if (fatInit v s).1 then
          (blockRead s 0).1.map fun b => (blockSectorCount (fatInit v s).2.2, b)
        else none)

/-- The sectors of a cluster. -/
def clusterSectors (v : Volume) (c : Nat) : Set Nat :=
  Set.Ico (v.dataStart + (c - 2) * v.sectorsPerCluster)
    (v.dataStart + (c - 2) * v.sectorsPerCluster + v.sectorsPerCluster)

/-- What is safe to rely on in a mounted volume of `total` sectors whose boot sector is `b`: behind
`le16 b 14` reserved sectors come `b[16]` copies of a FAT of `le16 b 22` sectors, a root directory
of `le16 b 17` entries, and the data. -/
structure Areas (v : Volume) (b : Bytes) (total : Nat) : Prop where
  sectors : total = if le16 b 19 = 0 then le32 b 32 else le16 b 19
  reserved : v.fatStart = le16 b 14
  copies : b 16 = 1 ∨ b 16 = 2
  fats : v.rootStart = v.fatStart + (b 16).toNat * le16 b 22
  entries : v.rootEntries = le16 b 17
  rootArea : v.dataStart = v.rootStart + (v.rootEntries * 32 + 511) / 512
  sectorsPerCluster : v.sectorsPerCluster = (b 13).toNat
  clusters : v.clusters = (total - v.dataStart) / v.sectorsPerCluster
  fat : ∀ c, validCluster v c = true → v.fatStart + c / 256 < 2 ^ 32 ∧
    v.fatStart + c / 256 ∈ Set.Ico v.fatStart (v.fatStart + le16 b 22)
  root : ∀ i < v.rootEntries, v.rootStart + i / 16 < 2 ^ 32 ∧
    v.rootStart + i / 16 ∈ Set.Ico v.rootStart v.dataStart
  data : ∀ c, validCluster v c = true → ∀ k < v.sectorsPerCluster,
    v.dataStart + (c - 2) * v.sectorsPerCluster + k < 2 ^ 32 ∧
      v.dataStart + (c - 2) * v.sectorsPerCluster + k ∈ Set.Ico v.dataStart total
  boot : 0 ∈ Set.Ico 0 v.fatStart
  disjoint : [Set.Ico 0 v.fatStart, Set.Ico v.fatStart v.rootStart,
    Set.Ico v.rootStart v.dataStart, Set.Ico v.dataStart total].Pairwise Disjoint
  clusters_disjoint : ∀ c d, validCluster v c = true → validCluster v d = true → c ≠ d →
    Disjoint (clusterSectors v c) (clusterSectors v d)
  power : ∃ e, v.clusterBytes = 2 ^ e

namespace Geometry

/-- Data sectors of different clusters do not meet. -/
theorem clusterSectors_disjoint (c d : Nat) (hc : 2 ≤ c) (hcd : c < d) :
    Disjoint (clusterSectors v c) (clusterSectors v d) := by
  rw [clusterSectors, clusterSectors, Set.Ico_disjoint_Ico]
  have : (c - 2 + 1) * v.sectorsPerCluster ≤ (d - 2) * v.sectorsPerCluster :=
    Nat.mul_le_mul_right _ (by omega)
  rw [Nat.add_mul, Nat.one_mul] at this
  omega

theorem disjoint (g : Geometry v total fatSectors copies) :
    [Set.Ico 0 v.fatStart, Set.Ico v.fatStart v.rootStart, Set.Ico v.rootStart v.dataStart,
      Set.Ico v.dataStart total].Pairwise Disjoint := by
  have h₁ : v.fatStart ≤ v.rootStart := by rw [g.rootStart]; exact Nat.le_add_right _ _
  have h₂ : v.rootStart ≤ v.dataStart := by rw [g.dataStart]; exact Nat.le_add_right _ _
  simp only [List.pairwise_cons, List.mem_cons, List.not_mem_nil, or_false, forall_eq_or_imp,
    forall_eq, List.Pairwise.nil, and_true, IsEmpty.forall_iff, implies_true]
  refine ⟨⟨?_, ?_, ?_⟩, ⟨?_, ?_⟩, ?_⟩ <;> exact Set.Ico_disjoint_Ico.mpr (by omega)

theorem clusters_disjoint (g : Geometry v total fatSectors copies) {c d : Nat}
    (hc : validCluster v c = true) (hd : validCluster v d = true) (hne : c ≠ d) :
    Disjoint (clusterSectors v c) (clusterSectors v d) := by
  have hc₂ := (g.valid_iff.mp hc).1
  have hd₂ := (g.valid_iff.mp hd).1
  rcases Nat.lt_or_gt_of_ne hne with hlt | hlt
  · exact clusterSectors_disjoint c d hc₂ hlt
  · exact (clusterSectors_disjoint d c hd₂ hlt).symm

/-- The sectors of a cluster are a power of two of at most 128. -/
theorem clusterBytes_power (g : Geometry v total fatSectors copies)
    (hspc : v.sectorsPerCluster &&& (v.sectorsPerCluster - 1) = 0) :
    ∃ e, v.clusterBytes = 2 ^ e := by
  have hall : ∀ n ≤ 128, 0 < n → n &&& (n - 1) = 0 → ∃ e ≤ 7, n = 2 ^ e := by decide
  obtain ⟨e, -, he⟩ := hall v.sectorsPerCluster g.spc_le g.spc_pos hspc
  exact ⟨e + 9, by rw [g.clusterBytes, he, Nat.pow_add]⟩

end Geometry

/-- The areas of a volume that `fat_init` has mounted from the boot sector `b`. -/
theorem Volume.Of.areas {b : Bytes} (hv : v.Of b)
    (g : Geometry v (totalSectors b) (le16 b 22) (b 16).toNat) : Areas v b (totalSectors b) where
  sectors := rfl
  reserved := hv.fatStart
  copies := hv.copies
  fats := g.rootStart
  entries := hv.rootEntries
  rootArea := g.dataStart
  sectorsPerCluster := hv.sectorsPerCluster
  clusters := by rw [hv.clusters, hv.sectorsPerCluster]
  fat c hc := by
    obtain ⟨-, hin, hlt⟩ := g.fatSector hc
    exact ⟨hlt.trans g.total_lt, Nat.le_add_right _ _, hin⟩
  root i hi := by
    obtain ⟨-, hin, hlt⟩ := g.rootSector hi
    exact ⟨hlt.trans g.total_lt, Nat.le_add_right _ _, hin⟩
  data c hc k hk := by
    obtain ⟨-, hlt⟩ := g.dataSector hc hk
    exact ⟨hlt.trans g.total_lt, by omega, hlt⟩
  boot := ⟨le_rfl, g.fatStart_pos⟩
  disjoint := g.disjoint
  clusters_disjoint _ _ := g.clusters_disjoint
  power := g.clusterBytes_power (by rw [hv.sectorsPerCluster, hv.spc_power])

section Flag

variable {σ : Type} [BlockDevice σ]

/-- The volume is mounted exactly when `fat_init` returns true. -/
theorem fatInit_mounted (v : Volume) (s : σ) : (fatInit v s).2.1.mounted = (fatInit v s).1 := by
  unfold fatInit
  simp only
  split
  · rfl
  split
  · rfl
  split
  · rfl
  split
  · rfl
  split <;> rfl

theorem fatOpen_unmounted (h : v.mounted = false) (name : Option (List UInt8)) (s : σ) :
    (fatOpen v name s).1 = none := by
  simp [fatOpen, h]

theorem fatNext_unmounted (h : v.mounted = false) (cursor : Nat) (s : σ) :
    (fatNext v cursor s).1.1 = -1 := by
  simp [fatNext, rootEntry, h]

theorem fatRead_unmounted (h : v.mounted = false) (file : FatFile) (offset buffer length : Nat)
    (mem : Bytes) (s : σ) : (fatRead v file offset buffer length mem s).1 = false := by
  simp [fatRead, h]

end Flag

/-- The boot sector that a successful `fat_init` has read. -/
theorem Mounts.mounted_iff {last : Option (Nat × Bytes)} (h : Mounts v last) :
    v.mounted = last.isSome := by
  cases h with
  | start => rfl
  | @init v₀ last₀ σ _ s before =>
      rw [fatInit_mounted]
      split
      next hf =>
        have hinit : fatInit v₀ s = (true, (fatInit v₀ s).2) := Prod.ext hf rfl
        obtain ⟨b, hb, -⟩ := fatInit_boot hinit
        rw [hf, hb]
        rfl
      next hf => simpa using hf

/-- **Mounted geometry is safe.**  After any calls of `fat_init` on any disks: if the volume is
mounted, its areas are as `Areas` says for the boot sector of the last mount and end within its
disk; if the last call failed, every operation of the reader fails on every disk. -/
theorem mounted_geometry_safe {last : Option (Nat × Bytes)} (h : Mounts v last) :
    (v.mounted = true → ∃ count b total, last = some (count, b) ∧ total ≤ count ∧
      Areas v b total) ∧
    (last = none → ∀ (σ : Type) [BlockDevice σ] (s : σ),
      (∀ name, (fatOpen v name s).1 = none) ∧ (∀ cursor, (fatNext v cursor s).1.1 = -1) ∧
      ∀ file offset buffer length mem, (fatRead v file offset buffer length mem s).1 = false) := by
  constructor
  · intro hm
    cases h with
    | start => cases hm
    | @init v₀ last₀ σ _ s before =>
        rw [fatInit_mounted] at hm
        have hinit : fatInit v₀ s = (true, (fatInit v₀ s).2) := Prod.ext hm rfl
        obtain ⟨b, hb, hv, g, hle⟩ := fatInit_boot hinit
        refine ⟨_, b, totalSectors b, ?_, hle, hv.areas g⟩
        rw [if_pos hm, hb]
        rfl
  · intro hlast σ _ s
    have hm : v.mounted = false := by rw [h.mounted_iff, hlast]; rfl
    exact ⟨fun name => fatOpen_unmounted hm name s, fun cursor => fatNext_unmounted hm cursor s,
      fun file offset buffer length mem => fatRead_unmounted hm file offset buffer length mem s⟩

/-- `shellDisk` mounted: its 4103 sectors hold every area. -/
theorem mounted_geometry_safe_shell :
    Mounts shellVolume (some (4103, shellDisk.bytes 0)) ∧
      Areas shellVolume (shellDisk.bytes 0) 4103 := by
  have hm : Mounts shellVolume (some (4103, shellDisk.bytes 0)) := by
    have := Mounts.start.init (⟨⟩ : shellDisk.Reader)
    rw [fatInit_shellDisk] at this
    exact this
  obtain ⟨count, b, total, hlast, -, hareas⟩ := (mounted_geometry_safe hm).1 rfl
  cases hlast
  have htotal : total = 4103 := hareas.sectors
  exact ⟨hm, htotal ▸ hareas⟩

end Arunos
