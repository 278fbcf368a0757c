import Arunos.Fs.Block
import Arunos.Lib.Math
import Arunos.Lib.String

/-!
# Fs — Fat — the FAT16 reader of `kernel/fs/fat.c`

The file's static variables are a `Volume`; every function passes the driver state through its
reads.  A function that returns `false` on failure and a value through a pointer on success
returns an `Option`; `fat_read`, which writes its buffer before it can fail, returns its flag and
the memory.  Names are the bytes before the terminator, `none` for a null pointer.
-/

namespace Arunos

variable {σ : Type} [BlockDevice σ]

/-- The static variables of `fat.c`. -/
structure Volume where
  fatStart : Nat
  rootStart : Nat
  dataStart : Nat
  clusters : Nat
  clusterBytes : Nat
  rootEntries : Nat
  sectorsPerCluster : Nat
  mounted : Bool
  deriving DecidableEq

/-- The static variables before the first mount. -/
def Volume.zero : Volume := ⟨0, 0, 0, 0, 0, 0, 0, false⟩

/-- `struct FatFile`. -/
structure FatFile where
  size : Nat
  cluster : Nat
  deriving DecidableEq

def validCluster (v : Volume) (cluster : Nat) : Bool :=
  decide (cluster ≥ 2) && decide (cluster < u32 (v.clusters + 2)) && decide (cluster < 0xfff0)

def nextCluster (v : Volume) (cluster : Nat) (s : σ) : Option Nat × σ :=
  if !validCluster v cluster then (none, s)
  else
    match blockRead s (u32 (v.fatStart + cluster / 256)) with
    | (none, s) => (none, s)
    | (some sector, s) => (some (le16 sector (cluster % 256 * 2)), s)

/-- The 16-bit sector count of a boot sector, or the 32-bit one when that is zero. -/
def totalSectors (b : Bytes) : Nat := if le16 b 19 = 0 then le32 b 32 else le16 b 19

/-- `fat_init`: the flag it returns and the static variables it leaves, which the checks may
abandon half written. -/
def fatInit (v : Volume) (s : σ) : Bool × Volume × σ :=
  let v := { v with mounted := false }
  match blockRead s 0 with
  | (none, s) => (false, v, s)
  | (some b, s) =>
      if le16 b 510 ≠ 0xaa55 ∨ le16 b 11 ≠ 512 then (false, v, s)
      else
        let v := { v with
          sectorsPerCluster := (b 13).toNat, fatStart := le16 b 14, rootEntries := le16 b 17 }
        let fatSectors := le16 b 22
        let total := totalSectors b
        if v.sectorsPerCluster = 0 ∨ v.sectorsPerCluster > 128 ∨
            v.sectorsPerCluster &&& (v.sectorsPerCluster - 1) ≠ 0 ∨
            v.fatStart = 0 ∨ v.rootEntries = 0 ∨ fatSectors = 0 ∨
            (b 16 ≠ 1 ∧ b 16 ≠ 2) ∨ total > blockSectorCount s then (false, v, s)
        else
          let rootSectors := (v.rootEntries * 32 + 511) / 512
          let v := { v with rootStart := u32 (v.fatStart + (b 16).toNat * fatSectors) }
          let v := { v with dataStart := u32 (v.rootStart + rootSectors) }
          if total ≤ v.dataStart then (false, v, s)
          else
            let v := { v with
              clusters := (unsignedDivmod (total - v.dataStart) v.sectorsPerCluster).1 }
            if v.clusters < 4085 ∨ v.clusters ≥ 65525 ∨
                u32 (v.clusters + 2) > u32 (fatSectors * 256) then (false, v, s)
            else
              (true, { v with clusterBytes := v.sectorsPerCluster * 512, mounted := true }, s)

/-- The characters `short_name` refuses: `"*+,/:;<=>?[\]|`. -/
def illegalChars : List UInt8 := [34, 42, 43, 44, 47, 58, 59, 60, 61, 62, 63, 91, 92, 93, 124]

/-- The loop of `short_name` over the rest of the name. -/
def shortNameLoop : List UInt8 → Nat → Nat → List UInt8 → Option (List UInt8)
  | [], _, _, key => some key
  | ch :: rest, pos, limit, key =>
      if ch = 0 then some key
      else if ch = 46 then
        -- a dot needs a base before it, no dot before it and a character after it
        if pos = 0 ∨ limit = 11 ∨ rest.headD 0 = 0 then none
        else shortNameLoop rest 8 11 key
      else if pos = limit ∨ ch ≤ 32 ∨ ch ≥ 127 ∨ strchr illegalChars ch ≠ none then none
      else
        let ch := if 97 ≤ ch ∧ ch ≤ 122 then ch - 32 else ch
        shortNameLoop rest (pos + 1) limit (key.set pos ch)

/-- `short_name`: the 11-byte key. -/
def shortName : Option (List UInt8) → Option (List UInt8)
  | none => none
  | some name =>
      if name.headD 0 = 0 then none else shortNameLoop name 0 8 (List.replicate 11 32)

/-- The three kinds of result of `root_entry`: -1, 0, or the next cursor with the entry. -/
inductive RootEntry where
  | error
  | eof
  | slot (next : Nat) (entry : Bytes)

/-- The loop of `root_entry`, with `n` slots left from slot `i` on.  The sector buffer is loaded
at the first slot and at every sixteenth. -/
def rootEntryLoop (v : Volume) (cursor : Nat) : Nat → Nat → Bytes → σ → RootEntry × σ
  | 0, _, _, s => (.eof, s)
  | n + 1, i, sector, s =>
      match (if i = cursor ∨ i % 16 = 0 then blockRead s (u32 (v.rootStart + i / 16))
        else (some sector, s)) with
      | (none, s) => (.error, s)
      | (some sector, s) =>
          let raw : Bytes := fun k => sector (i % 16 * 32 + k)
          if raw 0 = 0 then (.eof, s)
          else if raw 0 = 0xe5 ∨ raw 11 &&& 0x18 ≠ 0 then
            -- deleted entries, long names, labels and directories
            rootEntryLoop v cursor n (i + 1) sector s
          else (.slot (i + 1) raw, s)

def rootEntry (v : Volume) (cursor : Nat) (s : σ) : RootEntry × σ :=
  if !v.mounted ∨ cursor > v.rootEntries then (.error, s)
  else rootEntryLoop v cursor (v.rootEntries - cursor) cursor (fun _ => 0) s

/-- The bytes of a name field from `i` on, up to its first space, `n` at most. -/
def nameField (entry : Bytes) : Nat → Nat → List UInt8
  | 0, _ => []
  | n + 1, i => if entry i = 32 then [] else entry i :: nameField entry n (i + 1)

/-- The name `fat_next` renders for an entry. -/
def renderName (entry : Bytes) : List UInt8 :=
  nameField entry 8 0 ++ (if entry 8 ≠ 32 then 46 :: nameField entry 3 8 else [])

/-- `fat_next`: its return value, and the name when that is positive. -/
def fatNext (v : Volume) (cursor : Nat) (s : σ) : (Int × List UInt8) × σ :=
  match rootEntry v cursor s with
  | (.error, s) => ((-1, []), s)
  | (.eof, s) => ((0, []), s)
  | (.slot next entry, s) => ((next, renderName entry), s)

/-- `n` times `next_cluster(cluster, &cluster)`. -/
def followClusters (v : Volume) : Nat → Nat → σ → Option Nat × σ
  | 0, cluster, s => (some cluster, s)
  | n + 1, cluster, s =>
      match nextCluster v cluster s with
      | (none, s) => (none, s)
      | (some cluster, s) => followClusters v n cluster s

/-- What `fat_open` does at the entry whose name is the key. -/
def openEntry (v : Volume) (entry : Bytes) (s : σ) : Option FatFile × σ :=
  let file : FatFile := ⟨le32 entry 28, le16 entry 26⟩
  if file.size = 0 then (if file.cluster = 0 then some file else none, s)
  else
    let count := u32 ((unsignedDivmod (file.size - 1) v.clusterBytes).1 + 1)
    if count > v.clusters then (none, s)
    else
      match followClusters v count file.cluster s with
      | (none, s) => (none, s)
      | (some cluster, s) => (if cluster ≥ 0xfff8 then some file else none, s)

theorem rootEntryLoop_slot {v : Volume} {cursor n i : Nat} {sector : Bytes} {s : σ}
    {next : Nat} {entry : Bytes}
    (h : (rootEntryLoop v cursor n i sector s).1 = .slot next entry) :
    i < next ∧ next ≤ i + n := by
  induction n generalizing i sector s with
  | zero => simp [rootEntryLoop] at h
  | succ n ih =>
      rw [rootEntryLoop] at h
      split at h
      · simp at h
      · simp only at h
        split at h
        · simp at h
        · split at h
          · have := ih h; omega
          · simp only [RootEntry.slot.injEq] at h; omega

/-- The cursor moves forward, so the loops over it end. -/
theorem rootEntry_slot {v : Volume} {cursor : Nat} {s : σ} {next : Nat} {entry : Bytes}
    (h : (rootEntry v cursor s).1 = .slot next entry) : cursor < next ∧ next ≤ v.rootEntries := by
  unfold rootEntry at h
  split at h
  · simp at h
  · have := rootEntryLoop_slot h
    omega

/-- The loop of `fat_open` over the root directory. -/
def fatOpenLoop (v : Volume) (key : List UInt8) (cursor : Nat) (s : σ) : Option FatFile × σ :=
  match _h : rootEntry v cursor s with
  | (.slot next entry, s') =>
      if (List.range 11).map entry ≠ key then fatOpenLoop v key next s'
      else openEntry v entry s'
  | (.error, s') => (none, s')
  | (.eof, s') => (none, s')
termination_by v.rootEntries - cursor
decreasing_by
  have := rootEntry_slot (congrArg Prod.fst _h)
  omega

def fatOpen (v : Volume) (name : Option (List UInt8)) (s : σ) : Option FatFile × σ :=
  if !v.mounted then (none, s)
  else
    match shortName name with
    | none => (none, s)
    | some key => fatOpenLoop v key 0 s

/-- The copying loop of `fat_read`: `length` bytes left, the next one `within` the cluster, going
to `out`. -/
def fatReadLoop (v : Volume) (cluster within out length : Nat) (mem : Bytes) (s : σ) :
    Bool × Bytes × σ :=
  if _h : length = 0 then (true, mem, s)
  else if !validCluster v cluster then (false, mem, s)
  else
    match blockRead s
        (u32 (v.dataStart + (cluster - 2) * v.sectorsPerCluster + within / 512)) with
    | (none, s) => (false, mem, s)
    | (some sector, s) =>
        let n := min (512 - within % 512) length
        let mem := memcpy mem out (fun i => sector (within % 512 + i)) n
        if u32 (within + n) = v.clusterBytes ∧ length - n ≠ 0 then
          match nextCluster v cluster s with
          | (none, s) => (false, mem, s)
          | (some cluster, s) => fatReadLoop v cluster 0 (out + n) (length - n) mem s
        else fatReadLoop v cluster (u32 (within + n)) (out + n) (length - n) mem s
termination_by length
decreasing_by all_goals omega

/-- `fat_read`: its flag, the memory with what it wrote at `buffer`, and the driver. -/
def fatRead (v : Volume) (file : FatFile) (offset buffer length : Nat) (mem : Bytes) (s : σ) :
    Bool × Bytes × σ :=
  if !v.mounted ∨ offset > file.size ∨ length > file.size - offset then (false, mem, s)
  else if length = 0 then (true, mem, s)
  else
    let (skip, within) := unsignedDivmod offset v.clusterBytes
    if skip ≥ v.clusters then (false, mem, s)
    else
      match followClusters v skip file.cluster s with
      | (none, s) => (false, mem, s)
      | (some cluster, s) => fatReadLoop v cluster within buffer length mem s

end Arunos
