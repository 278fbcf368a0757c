import Arunos.Fs.Alike
import Arunos.Fs.Directory

/-!
# Fs — Failures — a disk that fails says nothing wrong

A read may fail at any time: the device has not answered, or the driver has given the disk up.  If
one device covers another (`Covers`), every read that succeeds on the second gives the same bytes on
the first.  The functions of `fat.c` then keep this: what they return without failing on the one
device they return on the other, and so it is what the contents of the disk say.

`storage_exact` is this for the driver of `virtio.c`, in any of its states and whatever its device
does.
-/

namespace Arunos

variable {σ τ : Type} [BlockDevice σ] [BlockDevice τ] {v : Volume} {img : Nat → Bytes} {n : Nat}

/-- What a read of the first device returns, a read of the second returns too. -/
def Covers (σ τ : Type) [BlockDevice σ] [BlockDevice τ] : Prop :=
  ∀ (s : σ) (t : τ) (k : Nat) (b : Bytes), (blockRead s k).1 = some b → (blockRead t k).1 = some b

theorem listing_ne_nil (cursor : Nat) (s : σ) : (listing v cursor s).1 ≠ [] := by
  rw [listing]
  split <;> exact List.cons_ne_nil _ _

/-- `fat_next` returns -1, 0 or a cursor. -/
theorem fatNext_eof {cursor : Nat} {s : σ} (hgood : (fatNext v cursor s).1 ≠ (-1, []))
    (hpos : ¬0 < (fatNext v cursor s).1.1) : (fatNext v cursor s).1.1 = 0 := by
  rw [fatNext] at hgood hpos ⊢
  split
  next hentry =>
    rw [hentry] at hgood
    exact absurd rfl hgood
  · rfl
  next next entry s₁ hentry =>
    rw [hentry] at hpos
    have := rootEntry_slot (congrArg Prod.fst hentry)
    exact absurd (show (0 : Int) < next by omega) hpos

/-! ### The functions of `fat.c` -/

section Covered

variable (h : Covers σ τ) {s s' : σ}
include h

theorem blockRead_covered {k : Nat} {b : Bytes} (hs : blockRead s k = (some b, s')) (t : τ) :
    ∃ t', blockRead t k = (some b, t') := by
  have hb : (blockRead t k).1 = some b := h s t k b (by rw [hs])
  exact ⟨_, Prod.ext hb rfl⟩

theorem nextCluster_covered {c x : Nat} (hs : nextCluster v c s = (some x, s')) (t : τ) :
    ∃ t', nextCluster v c t = (some x, t') := by
  rw [nextCluster] at hs ⊢
  split at hs
  · cases hs
  next hvalid =>
    rw [if_neg hvalid]
    split at hs
    · cases hs
    next sector s₁ hread =>
      obtain ⟨t₁, ht₁⟩ := blockRead_covered h hread t
      rw [ht₁]
      cases hs
      exact ⟨t₁, rfl⟩

theorem followClusters_covered {c x : Nat} (hs : followClusters v n c s = (some x, s')) (t : τ) :
    ∃ t', followClusters v n c t = (some x, t') := by
  induction n generalizing c s t with
  | zero =>
      cases hs
      exact ⟨t, rfl⟩
  | succ n ih =>
      rw [followClusters] at hs ⊢
      split at hs
      · cases hs
      next c₁ s₁ hnext =>
        obtain ⟨t₁, ht₁⟩ := nextCluster_covered h hnext t
        rw [ht₁]
        exact ih hs t₁

theorem fatReadLoop_covered {cluster within out length : Nat} {mem mem' : Bytes}
    (hs : fatReadLoop v cluster within out length mem s = (true, mem', s')) (t : τ) :
    ∃ t', fatReadLoop v cluster within out length mem t = (true, mem', t') := by
  fun_induction fatReadLoop v cluster within out length mem s generalizing t with
  | case1 cluster within out mem s =>
      cases hs
      rw [fatReadLoop, dif_pos rfl]
      exact ⟨t, rfl⟩
  | case2 => cases hs
  | case3 => cases hs
  | case4 => cases hs
  | case5 cluster within out length mem s h₀ hvalid sector s₁ hread n mem₁ hend c₁ s₂ hnext ih =>
      obtain ⟨t₁, ht₁⟩ := blockRead_covered h hread t
      obtain ⟨t₂, ht₂⟩ := nextCluster_covered h hnext t₁
      obtain ⟨t', ht'⟩ := ih hs t₂
      refine ⟨t', ?_⟩
      rw [fatReadLoop, dif_neg h₀, if_neg hvalid, ht₁]
      simp only [n, mem₁] at hend ht' ⊢
      rw [if_pos hend, ht₂]
      exact ht'
  | case6 cluster within out length mem s h₀ hvalid sector s₁ hread n mem₁ hend ih =>
      obtain ⟨t₁, ht₁⟩ := blockRead_covered h hread t
      obtain ⟨t', ht'⟩ := ih hs t₁
      refine ⟨t', ?_⟩
      rw [fatReadLoop, dif_neg h₀, if_neg hvalid, ht₁]
      simp only [n, mem₁] at hend ht' ⊢
      rw [if_neg hend]
      exact ht'

theorem fatRead_covered {file : FatFile} {offset buffer length : Nat} {mem mem' : Bytes}
    (hs : fatRead v file offset buffer length mem s = (true, mem', s')) (t : τ) :
    ∃ t', fatRead v file offset buffer length mem t = (true, mem', t') := by
  rw [fatRead] at hs ⊢
  split at hs
  · cases hs
  next hin =>
    rw [if_neg hin]
    split at hs
    next h₀ =>
      cases hs
      rw [if_pos h₀]
      exact ⟨t, rfl⟩
    next h₀ =>
      rw [if_neg h₀]
      simp only at hs ⊢
      split at hs
      · cases hs
      next hskip =>
        rw [if_neg hskip]
        split at hs
        · cases hs
        next c s₁ hfollow =>
          obtain ⟨t₁, ht₁⟩ := followClusters_covered h hfollow t
          rw [ht₁]
          exact fatReadLoop_covered h hs t₁

theorem rootEntryLoop_covered {cursor i : Nat} {sector : Bytes} {r : RootEntry}
    (hs : rootEntryLoop v cursor n i sector s = (r, s')) (hr : r ≠ .error) (t : τ) :
    ∃ t', rootEntryLoop v cursor n i sector t = (r, t') := by
  induction n generalizing i sector s t with
  | zero =>
      cases hs
      exact ⟨t, rfl⟩
  | succ n ih =>
      rw [rootEntryLoop] at hs ⊢
      split at hs
      · cases hs
        exact absurd rfl hr
      next sector₁ s₁ hload =>
        -- the sector is read now, or it is the one there was
        obtain ⟨t₁, ht₁⟩ : ∃ t₁, (if i = cursor ∨ i % 16 = 0 then
            blockRead t (u32 (v.rootStart + i / 16)) else (some sector, t)) =
            (some sector₁, t₁) := by
          split at hload
          next hread =>
            rw [if_pos hread]
            exact blockRead_covered h hload t
          next hread =>
            cases hload
            rw [if_neg hread]
            exact ⟨t, rfl⟩
        rw [ht₁]
        simp only at hs ⊢
        split at hs
        next hend =>
          cases hs
          rw [if_pos hend]
          exact ⟨t₁, rfl⟩
        next hend =>
          rw [if_neg hend]
          split at hs
          next hskip =>
            rw [if_pos hskip]
            exact ih hs t₁
          next hskip =>
            cases hs
            rw [if_neg hskip]
            exact ⟨t₁, rfl⟩

theorem rootEntry_covered {cursor : Nat} {r : RootEntry}
    (hs : rootEntry v cursor s = (r, s')) (hr : r ≠ .error) (t : τ) :
    ∃ t', rootEntry v cursor t = (r, t') := by
  rw [rootEntry] at hs ⊢
  split at hs
  · cases hs
    exact absurd rfl hr
  next hin =>
    rw [if_neg hin]
    exact rootEntryLoop_covered h hs hr t

theorem openEntry_covered {entry : Bytes} {file : FatFile}
    (hs : openEntry v entry s = (some file, s')) (t : τ) :
    ∃ t', openEntry v entry t = (some file, t') := by
  simp only [openEntry] at hs ⊢
  split at hs
  next h₀ =>
    rw [if_pos h₀]
    exact ⟨t, congrArg (·, t) (Prod.mk.inj hs).1⟩
  next h₀ =>
    rw [if_neg h₀]
    split at hs
    · cases hs
    next hcount =>
      rw [if_neg hcount]
      split at hs
      · cases hs
      next c s₁ hfollow =>
        obtain ⟨t₁, ht₁⟩ := followClusters_covered h hfollow t
        rw [ht₁]
        exact ⟨t₁, congrArg (·, t₁) (Prod.mk.inj hs).1⟩

theorem fatOpenLoop_covered {key : List UInt8} {cursor : Nat} {file : FatFile}
    (hs : fatOpenLoop v key cursor s = (some file, s')) (t : τ) :
    ∃ t', fatOpenLoop v key cursor t = (some file, t') := by
  fun_induction fatOpenLoop v key cursor s generalizing t with
  | case1 cursor s next entry s₁ hentry hkey ih =>
      obtain ⟨t₁, ht₁⟩ := rootEntry_covered h hentry (by simp) t
      obtain ⟨t', ht'⟩ := ih hs t₁
      refine ⟨t', ?_⟩
      rw [fatOpenLoop]
      split
      next next' entry' t₂ ht₂ =>
        cases ht₁.symm.trans ht₂
        rw [if_pos hkey]
        exact ht'
      next t₂ ht₂ => cases ht₁.symm.trans ht₂
      next t₂ ht₂ => cases ht₁.symm.trans ht₂
  | case2 cursor s next entry s₁ hentry hkey =>
      obtain ⟨t₁, ht₁⟩ := rootEntry_covered h hentry (by simp) t
      obtain ⟨t', ht'⟩ := openEntry_covered h hs t₁
      refine ⟨t', ?_⟩
      rw [fatOpenLoop]
      split
      next next' entry' t₂ ht₂ =>
        cases ht₁.symm.trans ht₂
        rw [if_neg hkey]
        exact ht'
      next t₂ ht₂ => cases ht₁.symm.trans ht₂
      next t₂ ht₂ => cases ht₁.symm.trans ht₂
  | case3 => cases hs
  | case4 => cases hs

theorem fatOpen_covered {name : Option (List UInt8)} {file : FatFile}
    (hs : (fatOpen v name s).1 = some file) (t : τ) : (fatOpen v name t).1 = some file := by
  rw [fatOpen] at hs ⊢
  split at hs
  · cases hs
  next hmounted =>
    rw [if_neg hmounted]
    split at hs
    · cases hs
    next key hkey =>
      obtain ⟨t', ht'⟩ := fatOpenLoop_covered h (Prod.ext hs rfl) t
      rw [ht']

theorem fatNext_covered {cursor : Nat} (hs : (fatNext v cursor s).1 ≠ (-1, [])) (t : τ) :
    ∃ t', fatNext v cursor t = ((fatNext v cursor s).1, t') := by
  cases hentry : rootEntry v cursor s with
  | mk r s₁ =>
      have hr : r ≠ .error := by
        rintro rfl
        exact hs (by rw [fatNext, hentry])
      obtain ⟨t₁, ht₁⟩ := rootEntry_covered h hentry hr t
      rw [fatNext, fatNext, hentry, ht₁]
      cases r with
      | error => exact absurd rfl hr
      | eof => exact ⟨t₁, rfl⟩
      | slot next entry => exact ⟨t₁, rfl⟩

/-- The names listed on the one device are listed on the other, up to a failure. -/
theorem listing_covered (cursor : Nat) (s : σ) (t : τ) :
    ∃ names r, (listing v cursor s).1 = names ++ [r] ∧
      (r.1 = -1 ∧ names <+: (listing v cursor t).1.dropLast ∨
        r.1 = 0 ∧ (listing v cursor t).1 = names ++ [r]) := by
  fun_induction listing v cursor s generalizing t with
  | case1 cursor s hpos rest ih =>
      have hgood : (fatNext v cursor s).1 ≠ (-1, []) := by
        intro he
        rw [he] at hpos
        exact absurd hpos (by decide)
      obtain ⟨t₁, ht₁⟩ := fatNext_covered h hgood t
      obtain ⟨names, r, hrest, hcases⟩ := ih t₁
      have ht : (listing v cursor t).1 = (fatNext v cursor s).1 ::
          (listing v (fatNext v cursor s).1.1.toNat t₁).1 := by
        rw [listing, ht₁, dif_pos hpos]
      refine ⟨(fatNext v cursor s).1 :: names, r, congrArg _ hrest, ?_⟩
      rw [ht]
      rcases hcases with ⟨hr, hprefix⟩ | ⟨hr, hall⟩
      · refine .inl ⟨hr, ?_⟩
        rw [List.dropLast_cons_of_ne_nil (listing_ne_nil _ _)]
        exact (List.prefix_cons_inj _).mpr hprefix
      · exact .inr ⟨hr, congrArg _ hall⟩
  | case2 cursor s hpos =>
      refine ⟨[], (fatNext v cursor s).1, rfl, ?_⟩
      by_cases hgood : (fatNext v cursor s).1 = (-1, [])
      · rw [hgood]
        exact .inl ⟨rfl, List.nil_prefix⟩
      · obtain ⟨t₁, ht₁⟩ := fatNext_covered h hgood t
        refine .inr ⟨fatNext_eof hgood hpos, ?_⟩
        rw [listing, ht₁, dif_neg hpos]
        rfl

end Covered

/-! ### A disk without failures -/

/-- A disk with the contents `img`, all of whose reads succeed. -/
structure Perfect (img : Nat → Bytes) where

instance : BlockDevice (Perfect img) where
  blockInit s := (true, s)
  blockSectorCount _ := 2 ^ 32
  blockRead s k := (some (img k), s)

theorem Perfect.serves (img : Nat → Bytes) : Serves (Perfect img) img (2 ^ 32) where
  holds _ _ _ hb := (Option.some.inj hb).symm
  count _ := rfl
  read _ _ _ := Option.some_ne_none _

/-- A disk with fixed contents is covered by the one that never fails. -/
theorem Holds.covers (hd : Holds σ img) : Covers σ (Perfect img) :=
  fun s _ k b hb => congrArg some (hd s k b hb).symm

/-- `fat_init` depends on the first sector, if the disk has the sectors that are named there. -/
theorem fatInit_congr {s s' s₁ : σ} {t t' : τ} {b : Bytes} (hs : blockRead s 0 = (some b, s'))
    (ht : blockRead t 0 = (some b, t')) (hn : totalSectors b ≤ blockSectorCount t')
    {v₀ : Volume} (hm : fatInit v₀ s = (true, v, s₁)) : fatInit v₀ t = (true, v, t') := by
  rw [fatInit, hs] at hm
  rw [fatInit, ht]
  dsimp only at hm ⊢
  split at hm
  · cases hm
  next h₁ =>
    split at hm
    · cases hm
    next h₂ =>
      split at hm
      · cases hm
      next h₃ =>
        split at hm
        · cases hm
        next h₄ =>
          cases hm
          rw [if_neg h₁, if_neg, if_neg h₃, if_neg h₄]
          -- of the checks only the last one looks at the disk
          simp only [not_or] at h₂ ⊢
          obtain ⟨ha, hb, hc, hd, he, hf, hg, -⟩ := h₂
          exact ⟨ha, hb, hc, hd, he, hf, hg, not_lt.mpr hn⟩

/-- The volume mounted is the one in the contents. -/
theorem Holds.fatInit_perfect (hd : Holds σ img) {v₀ : Volume} {s₀ s₁ : σ}
    (hm : fatInit v₀ s₀ = (true, v, s₁)) : fatInit v₀ (⟨⟩ : Perfect img) = (true, v, ⟨⟩) := by
  cases hread : blockRead s₀ 0 with
  | mk b s =>
      cases b with
      | none =>
          rw [fatInit, hread] at hm
          cases hm
      | some b =>
          obtain rfl : b = img 0 := hd s₀ 0 b (by rw [hread])
          have hperfect : blockRead (⟨⟩ : Perfect img) 0 = (some (img 0), ⟨⟩) := rfl
          exact fatInit_congr hread hperfect (totalSectors_lt _).le hm

/-! ### Files -/

theorem fileNamed_size_lt {v₀ : Volume} (hm : fatInit v₀ (⟨⟩ : Perfect img) = (true, v, ⟨⟩))
    {name : List UInt8} {file : FatFile} (hfile : fileNamed img v name = some file) :
    file.size < 2 ^ 32 := by
  obtain ⟨total, fatSectors, copies, g, ht⟩ := fatInit_geometry hm
  exact fatOpen_size_lt ((fatOpen_eq_fileNamed (Perfect.serves img) g ht name ⟨⟩).trans hfile)

section Files

variable (hd : Holds σ img) {v₀ : Volume} (hm : fatInit v₀ (⟨⟩ : Perfect img) = (true, v, ⟨⟩))
include hd hm

/-- What `fat_open` returns is the file of the name. -/
theorem fatOpen_fileNamed {name : List UInt8} {s : σ} {file : FatFile}
    (hs : (fatOpen v (some name) s).1 = some file) : fileNamed img v name = some file := by
  obtain ⟨total, fatSectors, copies, g, ht⟩ := fatInit_geometry hm
  rw [← fatOpen_eq_fileNamed (Perfect.serves img) g ht name ⟨⟩]
  exact fatOpen_covered (hd.covers) hs _

/-- What `fat_read` has read when it succeeds. -/
theorem fatRead_fileByte {name : List UInt8} {file : FatFile}
    (hfile : fileNamed img v name = some file) {offset buffer length : Nat} {mem : Bytes} {s : σ}
    (hs : (fatRead v file offset buffer length mem s).1 = true) :
    (fatRead v file offset buffer length mem s).2.1 = fun a =>
      if buffer ≤ a ∧ a < buffer + length then fileByte img v file.cluster (offset + (a - buffer))
      else mem a := by
  obtain ⟨total, fatSectors, copies, g, ht⟩ := fatInit_geometry hm
  have hopen : (fatOpen v (some name) (⟨⟩ : Perfect img)).1 = some file :=
    (fatOpen_eq_fileNamed (Perfect.serves img) g ht name ⟨⟩).trans hfile
  obtain ⟨key, i, s', -, -, hentry⟩ := fatOpen_some (Perfect.serves img).holds g hopen
  obtain ⟨hslot, -, hpos⟩ := openEntry_some (Perfect.serves img).holds g hentry
  have hlt : file.size < 2 ^ 32 := by rw [hslot]; exact le32_lt _ _
  obtain ⟨hoffset, hlength⟩ := fatRead_inside hs
  obtain ⟨-, hbytes⟩ :=
    fatRead_eq (Perfect.serves img) g ht hlt hpos hoffset hlength buffer mem ⟨⟩
  obtain ⟨t', ht'⟩ := fatRead_covered (hd.covers) (Prod.ext hs rfl) (⟨⟩ : Perfect img)
  rw [ht'] at hbytes
  exact funext hbytes

/-- The names listed are those of the directory, up to a failure. -/
theorem listing_listed (s : σ) : ∃ names r, (listing v 0 s).1 = names ++ [r] ∧
    (r.1 = -1 ∧ names <+: (listed img v).map (reported img v) ∨
      r.1 = 0 ∧ names = (listed img v).map (reported img v)) := by
  have hperfect := listing_zero (Perfect.serves img) hm ⟨⟩
  obtain ⟨names, r, hlist, hcases⟩ := listing_covered (hd.covers) 0 s (⟨⟩ : Perfect img)
  rw [hperfect] at hcases
  refine ⟨names, r, hlist, ?_⟩
  rcases hcases with ⟨hr, hprefix⟩ | ⟨hr, hall⟩
  · rw [List.dropLast_concat] at hprefix
    exact .inl ⟨hr, hprefix⟩
  · exact .inr ⟨hr, (List.append_inj_left' hall rfl).symm⟩

end Files

/-- **The storage stack is exact.**  Take the driver of `virtio.c` in any state, with a device that
answers each request when it likes or not at all, and a volume that was mounted in any state.  A
name that `fat_open` opens is a file of the disk, and this file; a `fat_read` that succeeds has read
this part of the file, and nothing else has changed; and the calls of `fat_next` give the names of
the directory in order, all of them or those before a call that fails. -/
theorem storage_exact {disk : Nat → Bytes} {v₀ v : Volume} {s₀ s₁ : VirtioDisk disk}
    (hm : fatInit v₀ s₀ = (true, v, s₁)) (s : VirtioDisk disk) :
    (∀ name file, (fatOpen v (some name) s).1 = some file →
      fileNamed (fun k => sectorBytes (disk k)) v name = some file) ∧
    (∀ name file, fileNamed (fun k => sectorBytes (disk k)) v name = some file →
      ∀ offset buffer length mem, (fatRead v file offset buffer length mem s).1 = true →
        offset + length ≤ file.size ∧
        (fatRead v file offset buffer length mem s).2.1 = fun a =>
          if buffer ≤ a ∧ a < buffer + length then
            fileByte (fun k => sectorBytes (disk k)) v file.cluster (offset + (a - buffer))
          else mem a) ∧
    ∃ names r, (listing v 0 s).1 = names ++ [r] ∧
      (r.1 = -1 ∧
          names <+: (listed (fun k => sectorBytes (disk k)) v).map
            (reported (fun k => sectorBytes (disk k)) v) ∨
        r.1 = 0 ∧
          names = (listed (fun k => sectorBytes (disk k)) v).map
            (reported (fun k => sectorBytes (disk k)) v)) := by
  have hd := VirtioDisk.holds disk
  replace hm := hd.fatInit_perfect hm
  refine ⟨fun name file hs => fatOpen_fileNamed hd hm hs, ?_, listing_listed hd hm s⟩
  intro name file hfile offset buffer length mem hs
  have hin := fatRead_inside hs
  exact ⟨by omega, fatRead_fileByte hd hm hfile hs⟩

/-- `shellDisk` behind a queue of 8, before `block_init`. -/
def shellDriver : Virtio :=
  { smallDriver with device := ⟨0, 8, 4103, shellDisk.bytes, 0, 0, 0, 0, 0, false, 0, 0⟩ }

/-- The driver of `shellDisk` after `block_init`; the device answers at the first poll. -/
def shellVirtio : VirtioDisk shellDisk.bytes where
  state := shellDriver.blockInit.2
  future _ _ := some ⟨0, fun _ => 0⟩
  quiet := Virtio.blockInit_quiet (s := shellDriver) ⟨by decide, by decide, by decide, by decide,
    by decide, by decide, by decide⟩ (fun _ => rfl)

/-- The device of `shellVirtio` answers in time. -/
theorem shellVirtio_prompt : shellVirtio.Prompt 4103 :=
  ⟨by decide +kernel, fun _ => ⟨0, _, by decide, by simp, rfl, rfl⟩⟩

/-- `shellDisk` is mounted through the driver. -/
theorem fatInit_shellVirtio :
    ∃ s, fatInit .zero shellVirtio = (true, shellVolume, s) ∧ s.Prompt 4103 := by
  have hmount : fatInit .zero (⟨⟩ : (virtioImage shellDisk.bytes 4103).Reader) =
      (true, shellVolume, ⟨⟩) := by decide +kernel
  have hagree := VirtioDisk.alike.fatInit .zero (t := ⟨⟩) shellVirtio_prompt
  rw [hmount] at hagree
  generalize fatInit .zero shellVirtio = r at *
  obtain ⟨_, ⟨_, h⟩⟩ := hagree
  exact ⟨_, rfl, h⟩

/-- The shell is opened and the first four bytes of its file are read through the driver: they are
the file's, and the listing is that of the directory. -/
theorem storage_exact_shell : ∃ s : VirtioDisk shellDisk.bytes,
    fatInit .zero shellVirtio = (true, shellVolume, s) ∧
      (fatOpen shellVolume (some shellName) s).1 = some ⟨88, 2⟩ ∧
      fileNamed (fun k => sectorBytes (shellDisk.bytes k)) shellVolume shellName = some ⟨88, 2⟩ ∧
      (fatRead shellVolume ⟨88, 2⟩ 0 0 4 (fun _ => 0) s).1 = true ∧
      (List.range 4).map (fatRead shellVolume ⟨88, 2⟩ 0 0 4 (fun _ => 0) s).2.1 =
        [0x7f, 0x45, 0x4c, 0x46] ∧
      ∃ names r, (listing shellVolume 0 s).1 = names ++ [r] ∧
        (r.1 = -1 ∧
            names <+: (listed (fun k => sectorBytes (shellDisk.bytes k)) shellVolume).map
              (reported (fun k => sectorBytes (shellDisk.bytes k)) shellVolume) ∨
          r.1 = 0 ∧
            names = (listed (fun k => sectorBytes (shellDisk.bytes k)) shellVolume).map
              (reported (fun k => sectorBytes (shellDisk.bytes k)) shellVolume)) := by
  obtain ⟨s, hm, hs⟩ := fatInit_shellVirtio
  obtain ⟨hopen, hread, hlist⟩ := storage_exact hm s
  have hfile : (fatOpen shellVolume (some shellName) s).1 = some ⟨88, 2⟩ := by
    rw [(VirtioDisk.alike.fatOpen shellVolume _ (t := ⟨⟩) hs).fst]
    decide +kernel
  have hok : (fatRead shellVolume ⟨88, 2⟩ 0 0 4 (fun _ => 0) s).1 = true := by
    rw [(VirtioDisk.alike.fatRead shellVolume _ _ _ _ _ (t := ⟨⟩) hs).fst]
    decide +kernel
  have hnamed := hopen _ _ hfile
  refine ⟨s, hm, hfile, hnamed, hok, ?_, hlist⟩
  rw [(hread _ _ hnamed 0 0 4 (fun _ => 0) hok).2]
  decide +kernel

end Arunos
