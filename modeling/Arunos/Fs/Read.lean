import Arunos.Fs.Open

/-!
# Fs — Read — `fat_read` returns the bytes of the file

The contents of a file are the data sectors of the clusters of its chain, in chain order, cut at
its size (`fileContents`).  Byte `i` lies in cluster `i / cluster_bytes` of the chain, sector
`i % cluster_bytes / 512` of that cluster (`fileByte`).

The copying loop of `fat_read` is at file position `pos` when its cluster is the iterate of
`fatEntry` at `pos / cluster_bytes` and `within` is `pos % cluster_bytes`.  `fat_open` validated
the clusters up to the last byte, so every read and every step along the chain succeeds
(`fatReadLoop_eq`).
-/

namespace Arunos

variable {σ : Type} [BlockDevice σ] {img : Nat → Bytes} {v : Volume}
  {total fatSectors copies : Nat}

/-! ### The contents of a file -/

/-- The data of cluster `c`, sector after sector. -/
def clusterData (img : Nat → Bytes) (v : Volume) (c : Nat) : List UInt8 :=
  (List.range v.sectorsPerCluster).flatMap fun k =>
    (List.range 512).map (img (v.dataStart + (c - 2) * v.sectorsPerCluster + k))

/-- The contents of a file: the data of its chain, cut at its size. -/
def fileContents (img : Nat → Bytes) (v : Volume) (file : FatFile) : List UInt8 :=
  ((fatChain img v file.cluster).flatMap (clusterData img v)).take file.size

/-- Byte `i` of the file whose chain starts at `c`. -/
def fileByte (img : Nat → Bytes) (v : Volume) (c i : Nat) : UInt8 :=
  img (v.dataStart + ((fatEntry img v)^[i / v.clusterBytes] c - 2) * v.sectorsPerCluster +
    i % v.clusterBytes / 512) (i % v.clusterBytes % 512)

/-- Indexing a concatenation of lists of one length. -/
theorem getElem?_flatMap_of_length {α β : Type*} {f : α → List β} {n : Nat} (hn : 0 < n)
    (hf : ∀ a, (f a).length = n) (l : List α) (i : Nat) :
    (l.flatMap f)[i]? = l[i / n]?.bind fun a => (f a)[i % n]? := by
  induction l generalizing i with
  | nil => simp
  | cons a l ih =>
      rw [List.flatMap_cons]
      by_cases h : i < n
      · rw [List.getElem?_append_left (by rw [hf]; exact h), Nat.div_eq_of_lt h,
          Nat.mod_eq_of_lt h]
        rfl
      · rw [List.getElem?_append_right (by rw [hf]; omega), hf, ih]
        obtain ⟨k, rfl⟩ : ∃ k, i = k + n := ⟨i - n, by omega⟩
        rw [Nat.add_sub_cancel, Nat.add_div_right _ hn, Nat.add_mod_right]
        rfl

theorem clusterData_length (g : Geometry v total fatSectors copies) (c : Nat) :
    (clusterData img v c).length = v.clusterBytes := by
  simp [clusterData, List.length_flatMap, List.map_const', g.clusterBytes]

theorem clusterData_getElem? (g : Geometry v total fatSectors copies) (c : Nat) {i : Nat}
    (hi : i < v.clusterBytes) :
    (clusterData img v c)[i]? =
      some (img (v.dataStart + (c - 2) * v.sectorsPerCluster + i / 512) (i % 512)) := by
  have hk : i / 512 < v.sectorsPerCluster := by
    rw [g.clusterBytes] at hi; omega
  rw [clusterData, getElem?_flatMap_of_length (n := 512) (by decide) (fun k => by simp),
    List.getElem?_range hk]
  have : i % 512 < 512 := Nat.mod_lt _ (by decide)
  simp [List.getElem?_range this]

theorem fileContents_getElem? (g : Geometry v total fatSectors copies) {file : FatFile}
    {n : Nat} (hn : n ≤ v.clusters) (hok : ChainOk img v file.cluster n)
    (hsize : file.size ≤ n * v.clusterBytes) {i : Nat} (hi : i < file.size) :
    (fileContents img v file)[i]? = some (fileByte img v file.cluster i) := by
  have hcb := g.clusterBytes_pos
  have hq : i / v.clusterBytes < n := Nat.div_lt_of_lt_mul (by rw [Nat.mul_comm]; omega)
  rw [fileContents, List.getElem?_take_of_lt hi,
    getElem?_flatMap_of_length hcb (clusterData_length g), hok.chain_eq g hn,
    List.getElem?_iterate _ _ _ _ hq]
  exact clusterData_getElem? g _ (Nat.mod_lt _ hcb)

/-! ### Reads that cannot fail -/

theorem nextCluster_of_valid {n : Nat} (hd : Serves σ img n)
    (g : Geometry v total fatSectors copies) (ht : total ≤ n) {c : Nat}
    (h : validCluster v c = true) (s : σ) :
    (nextCluster v c s).1 = some (fatEntry img v c) := by
  obtain ⟨hu, -, hlt⟩ := g.fatSector h
  rw [nextCluster, if_neg (by simp [h]), hu, hd.read_eq s (by omega)]
  rfl

theorem followClusters_of_valid {n : Nat} (hd : Serves σ img n)
    (g : Geometry v total fatSectors copies) (ht : total ≤ n) {k c : Nat}
    (h : ∀ i < k, validCluster v ((fatEntry img v)^[i] c) = true) (s : σ) :
    (followClusters v k c s).1 = some ((fatEntry img v)^[k] c) := by
  induction k generalizing c s with
  | zero => rfl
  | succ k ih =>
      have h₀ := nextCluster_of_valid hd g ht (c := c) (h 0 (by omega)) s
      rw [followClusters]
      split
      next hr => rw [hr] at h₀; cases h₀
      next c₁ s₁ hr =>
        rw [hr] at h₀
        cases Option.some.inj h₀
        exact ih (fun i hi => h (i + 1) (by omega)) s₁

/-- Within a sector the bytes of a file are consecutive. -/
theorem fileByte_add (g : Geometry v total fatSectors copies) {c pos i : Nat}
    (hi : i < 512 - pos % v.clusterBytes % 512) :
    fileByte img v c (pos + i) =
      img (v.dataStart + ((fatEntry img v)^[pos / v.clusterBytes] c - 2) * v.sectorsPerCluster +
        pos % v.clusterBytes / 512) (pos % v.clusterBytes % 512 + i) := by
  have hcb := g.clusterBytes_pos
  have hdm := Nat.div_add_mod pos v.clusterBytes
  have hlt : pos % v.clusterBytes + i < v.clusterBytes := by
    have := Nat.mod_lt pos hcb
    have h₅ := g.clusterBytes
    omega
  have hq : (pos + i) / v.clusterBytes = pos / v.clusterBytes := by
    refine Nat.div_eq_of_lt_le ?_ ?_
    · rw [Nat.mul_comm]; omega
    · rw [Nat.add_mul, Nat.one_mul, Nat.mul_comm]; omega
  have hr : (pos + i) % v.clusterBytes = pos % v.clusterBytes + i := by
    have := Nat.div_add_mod (pos + i) v.clusterBytes
    rw [hq] at this
    omega
  rw [fileByte, hq, hr, show (pos % v.clusterBytes + i) / 512 = pos % v.clusterBytes / 512 by omega,
    show (pos % v.clusterBytes + i) % 512 = pos % v.clusterBytes % 512 + i by omega]

/-- The position after copying to the end of a sector or of the request. -/
theorem pos_advance (g : Geometry v total fatSectors copies) {pos n : Nat}
    (hn : n ≤ 512 - pos % v.clusterBytes % 512) :
    if pos % v.clusterBytes + n = v.clusterBytes
    then (pos + n) / v.clusterBytes = pos / v.clusterBytes + 1 ∧ (pos + n) % v.clusterBytes = 0
    else (pos + n) / v.clusterBytes = pos / v.clusterBytes ∧
      (pos + n) % v.clusterBytes = pos % v.clusterBytes + n := by
  have hcb := g.clusterBytes_pos
  have h₅ := g.clusterBytes
  have hdm := Nat.div_add_mod pos v.clusterBytes
  have hlt := Nat.mod_lt pos hcb
  split
  next e =>
    have h : pos + n = (pos / v.clusterBytes + 1) * v.clusterBytes := by
      rw [Nat.add_mul, Nat.one_mul, Nat.mul_comm (pos / _)]; omega
    rw [h, Nat.mul_div_cancel _ hcb, Nat.mul_mod_left]
    exact ⟨rfl, rfl⟩
  next e =>
    have hle : pos % v.clusterBytes + n < v.clusterBytes := by omega
    have hq : (pos + n) / v.clusterBytes = pos / v.clusterBytes := by
      refine Nat.div_eq_of_lt_le ?_ ?_
      · rw [Nat.mul_comm]; omega
      · rw [Nat.add_mul, Nat.one_mul, Nat.mul_comm]; omega
    have := Nat.div_add_mod (pos + n) v.clusterBytes
    rw [hq] at this
    exact ⟨hq, by omega⟩

/-- **The copying loop.**  At file position `pos`, with `length` bytes to copy that lie in the
chain, it succeeds, and the target gets the file's bytes from `pos` on. -/
theorem fatReadLoop_eq {n : Nat} (hd : Serves σ img n) (g : Geometry v total fatSectors copies)
    (ht : total ≤ n) {c k : Nat} (hok : ChainOk img v c k) {length pos cluster within : Nat}
    (out : Nat) (mem : Bytes) (s : σ) (hc : cluster = (fatEntry img v)^[pos / v.clusterBytes] c)
    (hw : within = pos % v.clusterBytes) (hle : pos + length ≤ k * v.clusterBytes) :
    (fatReadLoop v cluster within out length mem s).1 = true ∧
    ∀ a, (fatReadLoop v cluster within out length mem s).2.1 a =
      if out ≤ a ∧ a < out + length then fileByte img v c (pos + (a - out)) else mem a := by
  have hcb := g.clusterBytes_pos
  induction length using Nat.strong_induction_on generalizing pos cluster within out mem s with
  | _ length ih =>
  by_cases h₀ : length = 0
  · subst h₀
    rw [fatReadLoop, dif_pos rfl]
    exact ⟨rfl, fun a => by rw [if_neg (by omega)]⟩
  have hlt := Nat.mod_lt pos hcb
  have h₅ := g.clusterBytes
  have hspc := g.spc_le
  have hq : pos / v.clusterBytes < k := Nat.div_lt_of_lt_mul (by rw [Nat.mul_comm]; omega)
  have hvalid : validCluster v cluster = true := hc ▸ hok.valid _ hq
  obtain ⟨hu, hsec⟩ := g.dataSector (k := within / 512) hvalid (by omega)
  rw [fatReadLoop, dif_neg h₀, if_neg (by simp [hvalid]), hu, hd.read_eq s (by omega)]
  generalize (blockRead s _).2 = s₀
  simp only
  generalize hn : min (512 - within % 512) length = m
  have hm : m ≤ 512 - pos % v.clusterBytes % 512 := by omega
  have hadv := pos_advance g hm
  rw [u32_of_lt (show within + m < 2 ^ 32 by omega)]
  -- the bytes copied in this round, then those of the rest
  have hmem : ∀ mem' : Bytes, (∀ a, mem' a =
      if out + m ≤ a ∧ a < out + m + (length - m) then fileByte img v c (pos + m + (a - (out + m)))
      else memcpy mem out (fun i => img (v.dataStart + (cluster - 2) * v.sectorsPerCluster +
        within / 512) (within % 512 + i)) m a) →
      ∀ a, mem' a =
        if out ≤ a ∧ a < out + length then fileByte img v c (pos + (a - out)) else mem a := by
    intro mem' h a
    rw [h a, memcpy_apply]
    split_ifs <;> try first | rfl | omega
    · congr 1; omega
    · rw [fileByte_add g (by omega), hc, hw]
  split
  next hnext =>
    rw [if_pos (hw ▸ hnext.1)] at hadv
    have hstep := nextCluster_of_valid hd g ht hvalid s₀
    split
    next hr => rw [hr] at hstep; cases hstep
    next c₁ s₁ hr =>
      rw [hr] at hstep
      have hc₁ : c₁ = (fatEntry img v)^[(pos + m) / v.clusterBytes] c := by
        rw [hadv.1, Function.iterate_succ_apply', ← hc]
        exact Option.some.inj hstep
      obtain ⟨hok', hb⟩ := ih (length - m) (by omega) (out + m) _ s₁ hc₁ hadv.2.symm (by omega)
      exact ⟨hok', hmem _ hb⟩
  next hnext =>
    by_cases hend : length - m = 0
    · rw [hend, fatReadLoop, dif_pos rfl]
      refine ⟨rfl, hmem _ fun a => ?_⟩
      rw [if_neg (by omega)]
    · rw [if_neg fun e => hnext ⟨hw ▸ e, hend⟩] at hadv
      have hc₁ : cluster = (fatEntry img v)^[(pos + m) / v.clusterBytes] c := by
        rw [hadv.1]
        exact hc
      have hw₁ : within + m = (pos + m) % v.clusterBytes := by rw [hadv.2, hw]
      obtain ⟨hok', hb⟩ := ih (length - m) (by omega) (out + m) _ s₀ hc₁ hw₁ (by omega)
      exact ⟨hok', hmem _ hb⟩

/-! ### The frame of a read, on any device -/

/-- Whatever the driver answers, the loop writes its `length` target bytes alone. -/
theorem fatReadLoop_other {cluster within out length : Nat} {mem : Bytes} {s : σ} {a : Nat}
    (ha : a < out ∨ out + length ≤ a) :
    (fatReadLoop v cluster within out length mem s).2.1 a = mem a := by
  fun_induction fatReadLoop v cluster within out length mem s with
  | case1 => rfl
  | case2 => rfl
  | case3 => rfl
  | case4 => exact memcpy_other (by omega)
  | case5 =>
      rename_i ih
      rw [ih (by omega)]
      exact memcpy_other (by omega)
  | case6 =>
      rename_i ih
      rw [ih (by omega)]
      exact memcpy_other (by omega)

theorem fatRead_other {file : FatFile} {offset buffer length : Nat} {mem : Bytes} {s : σ}
    {a : Nat} (ha : a < buffer ∨ buffer + length ≤ a) :
    (fatRead v file offset buffer length mem s).2.1 a = mem a := by
  unfold fatRead
  split
  · rfl
  split
  · rfl
  simp only
  split
  · rfl
  split
  · rfl
  · exact fatReadLoop_other ha

/-- A read that succeeds was inside the file. -/
theorem fatRead_inside {file : FatFile} {offset buffer length : Nat} {mem : Bytes} {s : σ}
    (h : (fatRead v file offset buffer length mem s).1 = true) :
    offset ≤ file.size ∧ length ≤ file.size - offset := by
  unfold fatRead at h
  split at h
  · cases h
  · next hin => omega

/-! ### Reading an opened file -/

/-- A request inside the file: `fat_read` succeeds, and writes the file's bytes. -/
theorem fatRead_eq {n : Nat} (hd : Serves σ img n) (g : Geometry v total fatSectors copies)
    (ht : total ≤ n) {file : FatFile} (hlt : file.size < 2 ^ 32)
    (hopen : 0 < file.size → (file.size + v.clusterBytes - 1) / v.clusterBytes ≤ v.clusters ∧
      ChainOk img v file.cluster ((file.size + v.clusterBytes - 1) / v.clusterBytes))
    {offset length : Nat} (ho : offset ≤ file.size) (hl : length ≤ file.size - offset)
    (buffer : Nat) (mem : Bytes) (s : σ) :
    (fatRead v file offset buffer length mem s).1 = true ∧
    ∀ a, (fatRead v file offset buffer length mem s).2.1 a =
      if buffer ≤ a ∧ a < buffer + length then
        fileByte img v file.cluster (offset + (a - buffer)) else mem a := by
  have hcb := g.clusterBytes_pos
  rw [fatRead, if_neg (by simp [g.mounted]; omega)]
  by_cases h₀ : length = 0
  · rw [if_pos h₀]
    exact ⟨rfl, fun a => by rw [if_neg (by omega)]⟩
  rw [if_neg h₀, unsignedDivmod_eq (by omega) hcb]
  obtain ⟨hcount, hok⟩ := hopen (by omega)
  generalize hk : (file.size + v.clusterBytes - 1) / v.clusterBytes = k at hcount hok
  have hsize : file.size ≤ k * v.clusterBytes := by
    have h₁ := Nat.div_add_mod (file.size + v.clusterBytes - 1) v.clusterBytes
    have h₂ := Nat.mod_lt (file.size + v.clusterBytes - 1) hcb
    rw [hk, Nat.mul_comm] at h₁
    omega
  have hskip : offset / v.clusterBytes < k := Nat.div_lt_of_lt_mul (by rw [Nat.mul_comm]; omega)
  simp only
  rw [if_neg (by omega)]
  have hwalk := followClusters_of_valid hd g ht
    (fun i hi => hok.valid i (lt_trans hi hskip)) s
  split
  next hr => rw [hr] at hwalk; cases hwalk
  next c₁ s₁ hr =>
    rw [hr] at hwalk
    exact fatReadLoop_eq hd g ht hok buffer mem s₁ (Option.some.inj hwalk) rfl (by omega)

/-- **Reading is correct.**  On a mounted volume whose disk serves fixed contents, for a file
`fat_open` returned and any 32-bit offset and length: a request inside the file succeeds, the
first `length` bytes of the buffer are the bytes of the contents from `offset` on, and nothing
else is written; any other request fails. -/
theorem fatRead_contents {n : Nat} (hd : Serves σ img n) {v₀ : Volume} {s₀ s₁ : σ}
    (hm : fatInit v₀ s₀ = (true, v, s₁)) {name : Option (List UInt8)} {s : σ} {file : FatFile}
    (hopen : (fatOpen v name s).1 = some file) (offset length : UInt32) (buffer : Nat)
    (mem : Bytes) (s' : σ) :
    (offset.toNat ≤ file.size ∧ length.toNat ≤ file.size - offset.toNat →
      (fatRead v file offset.toNat buffer length.toNat mem s').1 = true ∧
      (List.range length.toNat).map (fun i =>
          (fatRead v file offset.toNat buffer length.toNat mem s').2.1 (buffer + i)) =
        ((fileContents img v file).drop offset.toNat).take length.toNat ∧
      ∀ a, a < buffer ∨ buffer + length.toNat ≤ a →
        (fatRead v file offset.toNat buffer length.toNat mem s').2.1 a = mem a) ∧
    (¬ (offset.toNat ≤ file.size ∧ length.toNat ≤ file.size - offset.toNat) →
      (fatRead v file offset.toNat buffer length.toNat mem s').1 = false) := by
  obtain ⟨total, fatSectors, copies, g, ht⟩ := fatInit_geometry hm
  rw [hd.count] at ht
  obtain ⟨key, i, s'', -, -, hentry⟩ := fatOpen_some hd.holds g hopen
  obtain ⟨hfile, -, hpos⟩ := openEntry_some hd.holds g hentry
  have hlt : file.size < 2 ^ 32 := by rw [hfile]; exact le32_lt _ _
  refine ⟨fun ⟨ho, hl⟩ => ?_, fun hout => ?_⟩
  · obtain ⟨hok, hb⟩ := fatRead_eq hd g ht hlt hpos ho hl buffer mem s'
    refine ⟨hok, ?_, fun a ha => fatRead_other ha⟩
    refine List.ext_getElem? fun i => ?_
    by_cases hi : i < length.toNat
    · have hp : 0 < file.size := by omega
      obtain ⟨hcount, hchain⟩ := hpos hp
      have hsize : file.size ≤
          (file.size + v.clusterBytes - 1) / v.clusterBytes * v.clusterBytes := by
        have hcb := g.clusterBytes_pos
        have h₁ := Nat.div_add_mod (file.size + v.clusterBytes - 1) v.clusterBytes
        have h₂ := Nat.mod_lt (file.size + v.clusterBytes - 1) hcb
        rw [Nat.mul_comm] at h₁
        omega
      rw [List.getElem?_take_of_lt hi, List.getElem?_drop,
        fileContents_getElem? g hcount hchain hsize (by omega)]
      simp only [List.getElem?_map, List.getElem?_range hi, Option.map_some, hb]
      rw [if_pos ⟨by omega, by omega⟩, Nat.add_sub_cancel_left]
    · rw [List.getElem?_eq_none (by simpa using hi), List.getElem?_eq_none]
      simp only [List.length_take]
      omega
  · rw [fatRead, if_pos]
    by_contra hc
    simp only [not_or, not_lt, gt_iff_lt] at hc
    exact hout ⟨hc.2.1, hc.2.2⟩

/-- `fatRead_contents` at `shell` on `shellDisk`: three bytes from offset 4. -/
theorem fatRead_contents_shell :
    (fatRead shellVolume ⟨88, 2⟩ 4 0x1000 3 (fun _ => 0) (⟨⟩ : shellDisk.Reader)).1 = true ∧
      (List.range 3).map (fun i => (fatRead shellVolume ⟨88, 2⟩ 4 0x1000 3 (fun _ => 0)
        (⟨⟩ : shellDisk.Reader)).2.1 (0x1000 + i)) =
        ((fileContents shellDisk.bytes shellVolume ⟨88, 2⟩).drop 4).take 3 := by
  obtain ⟨hok, hbytes, -⟩ := (fatRead_contents shellDisk.serves fatInit_shellDisk
    fatOpen_shellDisk 4 3 0x1000 (fun _ => 0) ⟨⟩).1 (by decide)
  exact ⟨hok, hbytes⟩

end Arunos
