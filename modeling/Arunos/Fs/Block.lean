import Arunos.Support.Word

/-!
# Fs — Block — the disk under the filesystem

`block.h` offers one read-only disk of 512-byte sectors.  A driver is a state `σ` with the three
functions of that header; a read may fail, and may change the driver's state.

`Holds img` says the disk's contents are fixed: whatever a read returns is what `img` has at that
sector.  `Serves img n` says moreover that the disk has `n` sectors and that every read below `n`
succeeds.  A disk image read without failures serves its own contents (`Image.serves`).
-/

namespace Arunos

/-- The functions of `block.h`, over a driver state `σ`. -/
class BlockDevice (σ : Type) where
  /-- `block_init()`. -/
  blockInit : σ → Bool × σ
  /-- `block_sector_count()`. -/
  blockSectorCount : σ → Nat
  /-- `block_read(sector, buffer)`: the buffer when it returns true. -/
  blockRead : σ → Nat → Option Bytes × σ

export BlockDevice (blockInit blockSectorCount blockRead)

/-- The contents of the disk are fixed: a successful read of sector `k` returns `img k`. -/
def Holds (σ : Type) [BlockDevice σ] (img : Nat → Bytes) : Prop :=
  ∀ (s : σ) (k : Nat) (b : Bytes), (blockRead s k).1 = some b → b = img k

/-- The contents are fixed, the disk has `n` sectors and every read below `n` succeeds. -/
structure Serves (σ : Type) [BlockDevice σ] (img : Nat → Bytes) (n : Nat) : Prop where
  holds : Holds σ img
  count : ∀ s : σ, blockSectorCount s = n
  read : ∀ (s : σ) (k : Nat), k < n → (blockRead s k).1 ≠ none

theorem Serves.read_eq {σ : Type} [BlockDevice σ] {img : Nat → Bytes} {n : Nat}
    (h : Serves σ img n) (s : σ) {k : Nat} (hk : k < n) :
    blockRead s k = (some (img k), (blockRead s k).2) := by
  obtain ⟨b, hb⟩ := Option.ne_none_iff_exists'.mp (h.read s k hk)
  rw [← h.holds s k b hb, ← hb]

/-- A disk image: its sectors, and the bytes of each. -/
structure Image where
  sectors : Nat
  bytes : Nat → Bytes

/-- The driver of an image, which has no state of its own. -/
structure Image.Reader (d : Image) where
  deriving DecidableEq

/-- An image read without failures, as `tests/fat_disk.c` reads it. -/
instance (d : Image) : BlockDevice d.Reader where
  blockInit s := (decide (d.sectors ≠ 0), s)
  blockSectorCount _ := d.sectors
  blockRead s k := (if k < d.sectors then some (d.bytes k) else none, s)

theorem Image.serves (d : Image) : Serves d.Reader d.bytes d.sectors where
  holds s k b h := by
    simp only [BlockDevice.blockRead] at h
    split at h
    · exact (Option.some.inj h).symm
    · cases h
  count _ := rfl
  read s k hk := by simp [BlockDevice.blockRead, hk]

end Arunos
