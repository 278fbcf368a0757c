import Arunos.Memory.Vm
import Arunos.Support.Virtqueue

/-!
# Arch — Virtio — the block driver of `arch/versatilepb/virtio.c`

The driver has one request in memory and one queue.  `blockRead` fills in the request, makes it
available, notifies the device and polls; the device answers before one of the polls, or not at all,
and `answers` says which.  After ten million polls the driver resets the device and gives the disk
up.

`Quiet` is the state between two reads: `queue` and `request` are where they should be, the device
has nothing to do, and, unless the disk has been given up, the indices of both rings are the number
of requests so far.  `block_init` ends in such a state (`blockInit_quiet`).
-/

namespace Arunos

/-! ### The driver -/

/-- The static variables, the memory with `queue` and `request`, the PCI configuration space and the
device.  The memory is that of the kernel's addresses. -/
structure Virtio where
  ram : Bytes
  queue : Nat
  request : Nat
  avail : Nat
  used : Nat
  queueSize : Nat
  completed : Nat
  sectors : Nat
  config : Nat → Nat → Nat
  device : VirtioDevice

/-- A buffer of one sector with the bytes of `b`. -/
def sectorBytes (b : Bytes) : Bytes := fun i => if i < 512 then b i else 0

namespace Virtio

/-- `config[word] = value` for a slot. -/
def setConfig (s : Virtio) (slot word value : Nat) : Virtio :=
  { s with config := Function.update s.config slot (Function.update (s.config slot) word value) }

/-- `REG(type, offset) = value`. -/
def setReg (s : Virtio) (offset value : Nat) : Virtio :=
  { s with device := s.device.setReg offset value }

/-- The label `fail` of `block_init`. -/
def fail (s : Virtio) : Bool × Virtio :=
  let s := s.setReg 18 0x80
  (false, { s with sectors := 0 })

/-- `block_init` from the slot it has found to the size of the queue. -/
def negotiate (s : Virtio) (slot : Nat) : Virtio :=
  let s := s.setConfig slot 4 0x1001
  -- the command register is the lower half of its word
  let s := s.setConfig slot 1 (s.config slot 1 / 2 ^ 16 * 2 ^ 16 + 5)
  let s := s.setReg 18 0
  let s := s.setReg 18 1
  let s := s.setReg 18 3
  let features := s.device.reg 0
  let s := s.setReg 4 (features &&& (1 <<< 5))
  let s := s.setReg 14 0
  { s with queueSize := s.device.reg 12 }

/-- `block_init` from `memset` to `completed`: the queue is empty. -/
def install (s : Virtio) : Virtio :=
  let s := { s with ram := memset s.ram s.queue 0 12288 }
  let s := { s with avail := s.queue + 16 * s.queueSize }
  let s := { s with used := s.queue + roundUp (18 * s.queueSize + 6) 4096 }
  let s := { s with ram := store16 s.ram s.avail 1 }
  { s with completed := 0 }

/-- `block_init()`. -/
def blockInit (s : Virtio) : Bool × Virtio :=
  let s := { s with sectors := 0 }
  match (List.range 32).find? fun slot => s.config slot 0 = 0x10011af4 with
  | none => (false, s)
  | some slot =>
      let s := s.negotiate slot
      if s.queueSize < 3 ∨ s.queueSize > 256 ∨ s.queueSize &&& (s.queueSize - 1) ≠ 0 then s.fail
      else
        let s := s.install
        let s := s.setReg 8 (v2p s.queue >>> 12)
        if s.device.reg 24 ≠ 0 then s.fail
        else
          let s := { s with sectors := s.device.reg 20 }
          if s.sectors = 0 then s.fail
          else (true, s.setReg 18 7)

/-- `&avail[2 + (completed & (queue_size - 1))]`. -/
def availSlot (s : Virtio) : Nat := s.avail + 2 * (2 + (s.completed &&& (s.queueSize - 1)))

/-- The memory when `block_read` notifies the device: the request is filled in and available. -/
def requestRam (s : Virtio) (sector : Nat) : Bytes :=
  let m := store32 s.ram s.request 0
  let m := store32 m (s.request + 8) sector
  let m := Function.update m (s.request + 528) 0xff
  let m := Descriptor.store m s.queue ⟨v2p s.request, 0, 16, 1, 1⟩
  let m := Descriptor.store m (s.queue + 16) ⟨v2p (s.request + 16), 0, 512, 3, 2⟩
  let m := Descriptor.store m (s.queue + 32) ⟨v2p (s.request + 528), 0, 1, 2, 0⟩
  let m := store16 m s.availSlot 0
  store16 m (s.avail + 2) ((s.completed + 1) % 2 ^ 16)

/-- `block_read` up to the notification. -/
def publish (s : Virtio) (sector : Nat) : Virtio :=
  let s := { s with ram := s.requestRam sector }
  s.setReg 16 0

/-- The device serves the request that is available, if there is one. -/
def serve (s : Virtio) (a : VirtioAnswer) : Virtio :=
  { s with ram := (s.device.serve p2v s.ram a).1, device := (s.device.serve p2v s.ram a).2 }

/-- The device acts, or does not. -/
def act (s : Virtio) : Option VirtioAnswer → Virtio
  | none => s
  | some a => s.serve a

/-- The polls of `block_read` that are left, with the value of `timeout` after them.  The device may
act before each. -/
def pollLoop (answers : Nat → Option VirtioAnswer) : Nat → Nat → Virtio → Nat × Virtio
  | 0, timeout, s => (timeout, s)
  | left + 1, timeout, s =>
      let s := s.act (answers timeout)
      if le16 s.ram (s.used + 2) ≠ s.completed then (timeout, s)
      else pollLoop answers left (timeout + 1) s

/-- `block_read(sector, buffer)`. -/
def blockRead (answers : Nat → Option VirtioAnswer) (s : Virtio) (sector : Nat) :
    Option Bytes × Virtio :=
  if sector ≥ s.sectors then (none, s)
  else
    let (timeout, s) := pollLoop answers 10000000 0 (s.publish sector)
    if timeout = 10000000 then
      let s := s.act (answers timeout)
      let s := s.setReg 18 0
      (none, { s with sectors := 0 })
    else
      let s := { s with completed := (s.completed + 1) % 2 ^ 16 }
      let s := { s with device := s.device.readIsr }
      if s.ram (s.request + 528) ≠ 0 then (none, s)
      else (some (sectorBytes fun i => s.ram (s.request + 16 + i)), s)

/-- `block_read` runs into the timeout. -/
def TimesOut (answers : Nat → Option VirtioAnswer) (s : Virtio) (sector : Nat) : Prop :=
  sector < s.sectors ∧ (pollLoop answers 10000000 0 (s.publish sector)).1 = 10000000

/-! ### What the driver keeps -/

/-- Where the linker puts `queue` and `request`, and the half of the sector number that nobody
writes. -/
structure Placed (s : Virtio) : Prop where
  aligned : s.queue % 4096 = 0
  queue_lo : 0x80000000 < s.queue
  queue_hi : s.queue + 12288 ≤ 2 ^ 32
  request_lo : 0x80000000 ≤ s.request
  request_hi : s.request + 529 ≤ 2 ^ 32
  apart : s.queue + 12288 ≤ s.request ∨ s.request + 529 ≤ s.queue
  sectorHigh : le32 s.ram (s.request + 12) = 0

/-- Driver and device agree on the queue. -/
structure Ready (s : Virtio) : Prop where
  size : ∃ k, s.queueSize = 2 ^ k
  size_le : s.queueSize ≤ 256
  three_le : 3 ≤ s.queueSize
  max : s.device.queueMax.toNat = s.queueSize
  pfn : s.device.pfn = v2p s.queue / 4096
  avail : s.avail = s.queue + 16 * s.queueSize
  used : s.used = s.queue + roundUp (18 * s.queueSize + 6) 4096
  sectors_lt : s.sectors < 2 ^ 32
  completed_lt : s.completed < 2 ^ 16

/-- The free-running indices, of the device and in memory, are all `n`. -/
structure Indices (s : Virtio) (n : Nat) : Prop where
  lastAvail : s.device.lastAvail = n
  usedIdx : s.device.usedIdx = n
  avail : le16 s.ram (s.avail + 2) = n
  used : le16 s.ram (s.used + 2) = n

/-- The device has nothing to do. -/
def Idle (s : Virtio) : Prop := ∀ a, s.serve a = s

/-- The state between two reads. -/
structure Quiet (disk : Nat → Bytes) (s : Virtio) : Prop where
  placed : s.Placed
  idle : s.Idle
  contents : s.device.disk = disk
  ready : s.sectors ≠ 0 → s.Ready ∧ s.Indices s.completed

variable {s : Virtio} {disk : Nat → Bytes} {sector : Nat} {a : VirtioAnswer}

namespace Ready

theorem queueAt (h : s.Ready) (hp : s.Placed) : s.device.queueAt p2v = s.queue := by
  have h₁ := hp.aligned
  have h₂ := hp.queue_lo
  have h₃ := hp.queue_hi
  have hv : v2p s.queue / 4096 * 4096 = v2p s.queue := by
    rw [v2p_eq (by omega) (by omega)]
    omega
  rw [VirtioDevice.queueAt, h.pfn, hv, p2v_v2p (by omega) (by omega)]

theorem availAt (h : s.Ready) (hp : s.Placed) : s.device.availAt p2v = s.avail := by
  rw [VirtioDevice.availAt, h.queueAt hp, h.max, h.avail]

theorem used_eq (h : s.Ready) :
    s.used = s.queue + (18 * s.queueSize + 6 + 4095) / 4096 * 4096 := by
  have hn := h.size_le
  rw [h.used, roundUp, u32_of_lt (by omega)]
  rfl

theorem usedAt (h : s.Ready) (hp : s.Placed) : s.device.usedAt p2v = s.used := by
  rw [VirtioDevice.usedAt, h.queueAt hp, h.max, h.used_eq]

/-- The three parts of the queue, one after the other. -/
theorem parts (h : s.Ready) : s.avail = s.queue + 16 * s.queueSize ∧
    s.avail + 6 + 2 * s.queueSize ≤ s.used ∧ s.used + 6 + 8 * s.queueSize ≤ s.queue + 12288 := by
  have hn := h.size_le
  rw [h.used_eq, h.avail]
  omega

theorem mask (h : s.Ready) : s.completed &&& (s.queueSize - 1) = s.completed % s.queueSize := by
  obtain ⟨k, hk⟩ := h.size
  rw [hk, Nat.and_two_pow_sub_one_eq_mod]

/-- **The slot of the next request is in the ring.** -/
theorem slot (h : s.Ready) :
    s.avail + 4 ≤ s.availSlot ∧ s.availSlot + 2 ≤ s.avail + 4 + 2 * s.queueSize := by
  have hlt : s.completed % s.queueSize < s.queueSize := Nat.mod_lt _ (by have := h.three_le; omega)
  rw [availSlot, h.mask]
  omega

end Ready

/-! ### Initialisation -/

/-- A power of two, as `block_init` tests it. -/
theorem size_of_test : ∀ n < 257, 3 ≤ n → n &&& (n - 1) = 0 → ∃ k, n = 2 ^ k := by
  have h : ∀ n < 257, 3 ≤ n → n &&& (n - 1) = 0 → ∃ k < 9, n = 2 ^ k := by decide +kernel
  intro n hn h₁ h₂
  obtain ⟨k, -, hk⟩ := h n hn h₁ h₂
  exact ⟨k, hk⟩

theorem idle_of_unnotified (h : s.device.notified = false) : s.Idle := fun a => by
  rw [serve, VirtioDevice.serve_unnotified h]

theorem idle_of_index (h : le16 s.ram (s.device.availAt p2v + 2) = s.device.lastAvail) :
    s.Idle := fun a => by
  rw [serve, VirtioDevice.serve_idle h]

/-- Writes outside `request` keep the placement. -/
theorem Placed.write {s' : Virtio} (h : s.Placed) (hq : s'.queue = s.queue)
    (hr : s'.request = s.request)
    (hm : ∀ x, s.request + 12 ≤ x → x < s.request + 16 → s'.ram x = s.ram x) : s'.Placed := by
  refine ⟨hq ▸ h.aligned, hq ▸ h.queue_lo, hq ▸ h.queue_hi, hr ▸ h.request_lo, hr ▸ h.request_hi,
    by rw [hq, hr]; exact h.apart, ?_⟩
  rw [hr]
  exact (le32_congr fun x h₁ h₂ => hm x h₁ (by omega)).trans h.sectorHigh

/-- The queue as `block_init` leaves it: zero, but for the flag that asks for no interrupts. -/
def freshQueue (m : Bytes) (queue queueSize : Nat) : Bytes :=
  store16 (memset m queue 0 12288) (queue + 16 * queueSize) 1

theorem freshQueue_other (m : Bytes) (queue : Nat) {n x : Nat} (hn : n ≤ 256)
    (h : x < queue ∨ queue + 12288 ≤ x) : freshQueue m queue n x = m x := by
  rw [freshQueue, store16_other (by omega), memset_other (by omega)]

/-- The index of a ring in a fresh queue. -/
theorem freshQueue_index (m : Bytes) (queue n : Nat) {i : Nat} (h₁ : 2 ≤ i)
    (h₂ : 16 * n + i + 2 ≤ 12288) :
    le16 (freshQueue m queue n) (queue + 16 * n + i) = 0 := by
  have hz : ∀ x, queue + 16 * n + i ≤ x → x < queue + 16 * n + i + 2 →
      freshQueue m queue n x = 0 := fun x h₃ h₄ => by
    rw [freshQueue, store16_other (by omega), memset_apply, if_pos (by omega)]
  rw [le16_eq, hz _ (by omega) (by omega), hz _ (by omega) (by omega)]
  rfl

/-- The device has been reset, and its queue is not in use. -/
structure Unused (disk : Nat → Bytes) (s : Virtio) : Prop where
  placed : s.Placed
  contents : s.device.disk = disk
  device : s.device.Unused

theorem Placed.reset (h : s.Placed) : Unused s.device.disk (s.setReg 18 0) :=
  ⟨h.write rfl rfl fun _ _ _ => rfl, rfl, s.device.reset_unused⟩

namespace Unused

theorem setReg (h : s.Unused disk) {offset : Nat} (ho : offset ≠ 16) (value : Nat) :
    Unused disk (s.setReg offset value) :=
  ⟨h.placed.write rfl rfl fun _ _ _ => rfl, (VirtioDevice.setReg_disk _ _ _).trans h.contents,
    h.device.setReg ho value⟩

theorem setSectors (h : s.Unused disk) (n : Nat) : Unused disk { s with sectors := n } :=
  ⟨h.placed.write rfl rfl fun _ _ _ => rfl, h.contents, h.device⟩

theorem setSize (h : s.Unused disk) (n : Nat) : Unused disk { s with queueSize := n } :=
  ⟨h.placed.write rfl rfl fun _ _ _ => rfl, h.contents, h.device⟩

theorem install (h : s.Unused disk) (hn : s.queueSize ≤ 256) : Unused disk s.install := by
  refine ⟨h.placed.write rfl rfl fun x h₁ h₂ => ?_, h.contents, h.device⟩
  have := h.placed.apart
  exact freshQueue_other s.ram s.queue hn (by omega)

/-- The device is not notified, so it stays idle. -/
theorem fail (h : s.Unused disk) : Quiet disk s.fail.2 :=
  have h' := (h.setReg (by decide : 18 ≠ 16) 0x80).setSectors 0
  ⟨h'.placed, idle_of_unnotified h'.device.notified, h'.contents, fun h => absurd rfl h⟩

end Unused

theorem Placed.negotiate (h : s.Placed) (slot : Nat) :
    Unused s.device.disk (s.negotiate slot) ∧
      (s.negotiate slot).device.queueMax.toNat = (s.negotiate slot).queueSize := by
  unfold Virtio.negotiate
  extract_lets s₁ s₂ s₃ s₄ s₅ features s₆ s₇
  have h₂ : s₂.Placed := h.write rfl rfl fun _ _ _ => rfl
  have h₃ : s₃.Unused s.device.disk := h₂.reset
  have h₇ : s₇.Unused s.device.disk :=
    (((h₃.setReg (by decide) 1).setReg (by decide) 3).setReg (by decide) _).setReg (by decide) 0
  exact ⟨h₇.setSize _, rfl⟩

/-- The empty queue has both indices 0. -/
theorem Unused.indices (h : s.Unused disk) (hn : s.queueSize ≤ 256) : s.install.Indices 0 := by
  have hr : roundUp (18 * s.queueSize + 6) 4096 =
      16 * s.queueSize + ((18 * s.queueSize + 6 + 4095) / 4096 * 4096 - 16 * s.queueSize) := by
    rw [roundUp, u32_of_lt (by omega)]
    omega
  refine ⟨h.device.lastAvail, h.device.usedIdx, ?_, ?_⟩
  · exact freshQueue_index s.ram s.queue s.queueSize le_rfl (by omega)
  · change le16 (freshQueue s.ram s.queue s.queueSize)
      (s.queue + roundUp (18 * s.queueSize + 6) 4096 + 2) = 0
    rw [hr, ← Nat.add_assoc, Nat.add_assoc (s.queue + 16 * s.queueSize)]
    exact freshQueue_index s.ram s.queue s.queueSize (by omega) (by omega)

/-- With its queue installed and the address `v` given to the device the driver is ready. -/
theorem Unused.quiet (h : s.Unused disk) (hmax : s.device.queueMax.toNat = s.queueSize)
    (h₁ : 3 ≤ s.queueSize) (h₂ : s.queueSize ≤ 256) (h₃ : s.queueSize &&& (s.queueSize - 1) = 0)
    {v n : Nat} (hv : v = v2p s.queue / 4096) (hn : n < 2 ^ 32) :
    Quiet disk (Virtio.setReg { s.install.setReg 8 v with sectors := n } 18 7) := by
  have hu := (((h.install h₂).setReg (by decide : 8 ≠ 16) v).setSectors n).setReg
    (by decide : 18 ≠ 16) 7
  have hx := h.indices h₂
  exact ⟨hu.placed, idle_of_unnotified hu.device.notified, hu.contents, fun _ =>
    ⟨⟨size_of_test _ (Nat.lt_succ_of_le h₂) h₁ h₃, h₂, h₁, hmax, hv, rfl, rfl, hn,
      Nat.zero_lt_succ _⟩, hx.lastAvail, hx.usedIdx, hx.avail, hx.used⟩⟩

/-- **`block_init`** leaves nothing in flight, whether it finds a disk or not. -/
theorem blockInit_quiet (hp : s.Placed) (hi : s.Idle) : Quiet s.device.disk (blockInit s).2 := by
  have hp₀ : Placed { s with sectors := 0 } := hp.write rfl rfl fun _ _ _ => rfl
  unfold blockInit
  extract_lets s₀
  split
  · refine ⟨hp₀, fun a => ?_, rfl, fun h => absurd rfl h⟩
    exact congrArg (fun t : Virtio => { t with sectors := 0 }) (hi a)
  next slot _ =>
  obtain ⟨hu, hmax⟩ : Unused s.device.disk (s₀.negotiate slot) ∧ _ := hp₀.negotiate slot
  generalize s₀.negotiate slot = t at *
  extract_lets t₁ t₂ t₃ t₄
  split
  · exact hu.fail
  next hsize =>
  simp only [not_or, not_lt, not_not] at hsize
  obtain ⟨h₁, h₂, h₃⟩ := hsize
  have hu₃ : t₃.Unused s.device.disk := (hu.install h₂).setReg (by decide) _
  split
  · exact hu₃.fail
  split
  · exact (hu₃.setSectors _).fail
  · exact hu.quiet hmax h₁ h₂ h₃ (Nat.shiftRight_eq_div_pow _ 12) (Nat.mod_lt _ (by decide))

end Virtio

end Arunos
