import Arunos.Arch.Requests
import Arunos.Fs.Fat
import Arunos.Support.Fault

/-!
# Fs — Alike — two disks that answer alike

The filesystem knows a disk by its answers.  `Alike S` says that drivers in states related by `S`
have the same number of sectors, answer every read alike and stay related.  Then the functions of
`fat.c` return the same on both, and leave them related.

A device that answers each request in time and without an error makes the driver of `virtio.c`
answer as the image of its disk does (`VirtioDisk.alike`).
-/

namespace Arunos

variable {σ τ : Type} [BlockDevice σ] [BlockDevice τ] {S : σ → τ → Prop} {s : σ} {t : τ}
  {v : Volume}

/-- Drivers in related states answer alike and stay related. -/
structure Alike (S : σ → τ → Prop) : Prop where
  count : ∀ s t, S s t → blockSectorCount s = blockSectorCount t
  read : ∀ s t, S s t → ∀ k, Agree S (blockRead s k) (blockRead t k)

section Functions

variable (h : Alike S)
include h

/-- A link is the same on both disks. -/
theorem Alike.nextCluster (cluster : Nat) (hs : S s t) :
    Agree S (nextCluster v cluster s) (nextCluster v cluster t) := by
  unfold Arunos.nextCluster
  split
  · exact .intro _ hs
  · have hread := h.read s t hs (u32 (v.fatStart + cluster / 256))
    revert hread
    generalize blockRead s _ = p, blockRead t _ = q
    rintro ⟨_ | b, hs⟩ <;> exact .intro _ hs

/-- Both disks mount alike, or neither does. -/
theorem Alike.fatInit (v : Volume) (hs : S s t) : Agree (Agree S) (fatInit v s) (fatInit v t) := by
  unfold Arunos.fatInit
  have hread := h.read s t hs 0
  revert hread
  generalize blockRead s 0 = p, blockRead t 0 = q
  rintro ⟨_ | b, hs⟩
  · exact .intro _ (.intro _ hs)
  · dsimp only
    rw [h.count _ _ hs]
    repeat' split
    all_goals exact .intro _ (.intro _ hs)

/-- The same entry is found, by induction on the slots left. -/
theorem Alike.rootEntryLoop (cursor n i : Nat) (sector : Bytes) (hs : S s t) :
    Agree S (rootEntryLoop v cursor n i sector s) (rootEntryLoop v cursor n i sector t) := by
  induction n generalizing i sector s t with
  | zero => exact .intro _ hs
  | succ n ih =>
      have hread : Agree S
          (if i = cursor ∨ i % 16 = 0 then blockRead s (u32 (v.rootStart + i / 16))
            else (some sector, s))
          (if i = cursor ∨ i % 16 = 0 then blockRead t (u32 (v.rootStart + i / 16))
            else (some sector, t)) := by
        split
        · exact h.read s t hs _
        · exact .intro _ hs
      rw [Arunos.rootEntryLoop, Arunos.rootEntryLoop]
      revert hread
      generalize (if i = cursor ∨ i % 16 = 0 then blockRead s (u32 (v.rootStart + i / 16))
        else (some sector, s)) = p, (if i = cursor ∨ i % 16 = 0 then
        blockRead t (u32 (v.rootStart + i / 16)) else (some sector, t)) = q
      rintro ⟨_ | b, hs⟩
      · exact .intro _ hs
      · dsimp only
        split
        · exact .intro _ hs
        · split
          · exact ih _ _ hs
          · exact .intro _ hs

theorem Alike.rootEntry (v : Volume) (cursor : Nat) (hs : S s t) :
    Agree S (rootEntry v cursor s) (rootEntry v cursor t) := by
  unfold Arunos.rootEntry
  split
  · exact .intro _ hs
  · exact h.rootEntryLoop _ _ _ _ hs

/-- The same chain is followed, by induction on its length. -/
theorem Alike.followClusters (n cluster : Nat) (hs : S s t) :
    Agree S (followClusters v n cluster s) (followClusters v n cluster t) := by
  induction n generalizing cluster s t with
  | zero => exact .intro _ hs
  | succ n ih =>
      rw [Arunos.followClusters, Arunos.followClusters]
      have hnext := h.nextCluster (v := v) cluster hs
      revert hnext
      generalize Arunos.nextCluster v cluster s = p, Arunos.nextCluster v cluster t = q
      rintro ⟨_ | c, hs⟩
      · exact .intro _ hs
      · exact ih c hs

theorem Alike.openEntry (entry : Bytes) (hs : S s t) :
    Agree S (openEntry v entry s) (openEntry v entry t) := by
  unfold Arunos.openEntry
  dsimp only
  split
  · exact .intro _ hs
  split
  · exact .intro _ hs
  have hfollow := h.followClusters (v := v)
    (u32 ((unsignedDivmod (le32 entry 28 - 1) v.clusterBytes).1 + 1)) (le16 entry 26) hs
  revert hfollow
  generalize Arunos.followClusters v _ _ s = p, Arunos.followClusters v _ _ t = q
  rintro ⟨_ | c, hs⟩ <;> exact .intro _ hs

/-- The loop of `fat_open`, by induction on the slots left. -/
theorem Alike.fatOpenLoop (key : List UInt8) (cursor : Nat) (hs : S s t) :
    Agree S (fatOpenLoop v key cursor s) (fatOpenLoop v key cursor t) := by
  induction hn : v.rootEntries - cursor using Nat.strong_induction_on generalizing cursor s t with
  | _ n ih =>
      rw [Arunos.fatOpenLoop, Arunos.fatOpenLoop]
      have hentry := h.rootEntry v cursor hs
      have hnext : ∀ next entry, (Arunos.rootEntry v cursor s).1 = .slot next entry →
          v.rootEntries - next < n := by
        intro next entry he
        have := rootEntry_slot he
        omega
      revert hentry hnext
      generalize Arunos.rootEntry v cursor s = p, Arunos.rootEntry v cursor t = q
      rintro ⟨_ | _ | ⟨next, entry⟩, hs⟩ hnext
      · exact .intro _ hs
      · exact .intro _ hs
      · dsimp only
        split
        · exact ih _ (hnext next entry rfl) next hs rfl
        · exact h.openEntry entry hs

/-- A name opens the same file on both disks. -/
theorem Alike.fatOpen (v : Volume) (name : Option (List UInt8)) (hs : S s t) :
    Agree S (fatOpen v name s) (fatOpen v name t) := by
  unfold Arunos.fatOpen
  split
  · exact .intro _ hs
  split
  · exact .intro _ hs
  · exact h.fatOpenLoop _ 0 hs

/-- The copying loop of `fat_read`, by induction on the bytes left. -/
theorem Alike.fatReadLoop (cluster within out length : Nat) (mem : Bytes) (hs : S s t) :
    Agree (Agree S) (fatReadLoop v cluster within out length mem s)
      (fatReadLoop v cluster within out length mem t) := by
  induction length using Nat.strong_induction_on generalizing cluster within out mem s t with
  | _ length ih =>
      rw [Arunos.fatReadLoop, Arunos.fatReadLoop]
      split
      · exact .intro _ (.intro _ hs)
      next hpos =>
      split
      · exact .intro _ (.intro _ hs)
      have hread := h.read s t hs
        (u32 (v.dataStart + (cluster - 2) * v.sectorsPerCluster + within / 512))
      revert hread
      generalize blockRead s _ = p, blockRead t _ = q
      rintro @⟨_ | b, s', t', hs⟩
      · exact .intro _ (.intro _ hs)
      dsimp only
      split
      · have hnext := h.nextCluster (v := v) cluster hs
        revert hnext
        generalize Arunos.nextCluster v cluster s' = p, Arunos.nextCluster v cluster t' = q
        rintro ⟨_ | c, hs⟩
        · exact .intro _ (.intro _ hs)
        · exact ih _ (by omega) c 0 _ _ hs
      · exact ih _ (by omega) cluster _ _ _ hs

/-- A read of a file gives the same bytes on both disks. -/
theorem Alike.fatRead (v : Volume) (file : FatFile) (offset buffer length : Nat) (mem : Bytes)
    (hs : S s t) :
    Agree (Agree S) (fatRead v file offset buffer length mem s)
      (fatRead v file offset buffer length mem t) := by
  unfold Arunos.fatRead
  split
  · exact .intro _ (.intro _ hs)
  split
  · exact .intro _ (.intro _ hs)
  dsimp only
  split
  · exact .intro _ (.intro _ hs)
  have hfollow := h.followClusters (v := v) (unsignedDivmod offset v.clusterBytes).1 file.cluster hs
  revert hfollow
  generalize Arunos.followClusters v _ _ s = p, Arunos.followClusters v _ _ t = q
  rintro ⟨_ | c, hs⟩
  · exact .intro _ (.intro _ hs)
  · exact h.fatReadLoop c _ buffer length mem hs

end Functions

/-! ### A device that answers -/

/-- A read that succeeds does not change the number of sectors. -/
theorem Virtio.Quiet.read_sectors {s : Virtio} {disk : Nat → Bytes} (h : s.Quiet disk)
    {answers : Nat → Option VirtioAnswer} {sector : Nat} {b : Bytes}
    (hb : (s.blockRead answers sector).1 = some b) :
    (s.blockRead answers sector).2.sectors = s.sectors := by
  have he := h.ends answers sector
  generalize s.blockRead answers sector = r at *
  cases he with
  | outside => rfl
  | timeout => cases hb
  | answered => rfl

/-- The disk of a driver, as an image. -/
def virtioImage (disk : Nat → Bytes) (n : Nat) : Image := ⟨n, fun k => sectorBytes (disk k)⟩

/-- The driver has found `n` sectors, and its device is going to answer each request in time and
without an error. -/
structure VirtioDisk.Prompt {disk : Nat → Bytes} (s : VirtioDisk disk) (n : Nat) : Prop where
  sectors : s.state.sectors = n
  answers : ∀ i, ∃ j a, j < 10000000 ∧ (∀ l < j, s.future i l = none) ∧ s.future i j = some a ∧
    a.status = 0

/-- **A driver whose device answers is alike the image of its disk.** -/
theorem VirtioDisk.alike {disk : Nat → Bytes} {n : Nat} :
    Alike fun (s : VirtioDisk disk) (_ : (virtioImage disk n).Reader) => s.Prompt n := by
  refine ⟨fun s t h => h.sectors, fun s t h k => ?_⟩
  have hlater : ∀ i, ∃ j a, j < 10000000 ∧ (∀ l < j, s.future (i + 1) l = none) ∧
      s.future (i + 1) j = some a ∧ a.status = 0 := fun i => h.answers (i + 1)
  by_cases hk : k < n
  · obtain ⟨j, a, hj, hnone, ha, hzero⟩ := h.answers 0
    have hread : (blockRead s k).1 = some (sectorBytes (disk k)) :=
      s.quiet.read_answered (h.sectors.symm ▸ hk) hj hnone ha hzero
    have himage : blockRead t k = (some (sectorBytes (disk k)), t) := by
      simp [blockRead, virtioImage, hk]
    rw [himage, ← Prod.mk.eta (p := blockRead s k), hread]
    exact .intro _ ⟨(s.quiet.read_sectors hread).trans h.sectors, hlater⟩
  · have houtside : s.state.blockRead (s.future 0) k = (none, s.state) := by
      rw [Virtio.blockRead, if_pos (h.sectors.symm ▸ not_lt.mp hk)]
    have hread : (blockRead s k).1 = none := congrArg Prod.fst houtside
    have himage : blockRead t k = (none, t) := by
      simp [blockRead, virtioImage, hk]
    rw [himage, ← Prod.mk.eta (p := blockRead s k), hread]
    exact .intro _ ⟨(congrArg (fun r => r.2.sectors) houtside).trans h.sectors, hlater⟩

end Arunos
