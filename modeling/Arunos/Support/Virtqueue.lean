import Arunos.Support.Memory

/-!
# Support — Virtqueue — a disk behind a legacy virtio queue

The device side of the legacy virtio interface, for a disk with one queue.  The queue is memory
that both sides share: a table of descriptors, then the ring of available requests with its index,
then, from the next page on, the ring of used requests with its index.  A request is a chain of
descriptors; here a header, a buffer of one sector and a status byte.

Once it has been notified the device may take the oldest available request (`fetch`), and then it
does all of it (`complete`): it writes the buffer and the status byte, and advances the used index.
Both indices run freely in 16 bits.  `bus` takes an address of the device to the address the memory
has it at.
-/

namespace Arunos

/-! ### Descriptors -/

/-- An entry of the descriptor table. -/
structure Descriptor where
  addr : Nat
  addrHigh : Nat
  len : Nat
  flags : Nat
  next : Nat
deriving DecidableEq

namespace Descriptor

/-- The descriptor at `a`. -/
def load (m : Bytes) (a : Nat) : Descriptor :=
  ⟨le32 m a, le32 m (a + 4), le32 m (a + 8), le16 m (a + 12), le16 m (a + 14)⟩

/-- The memory `m` with the descriptor `d` at `a`. -/
def store (m : Bytes) (a : Nat) (d : Descriptor) : Bytes :=
  let m := store32 m a d.addr
  let m := store32 m (a + 4) d.addrHigh
  let m := store32 m (a + 8) d.len
  let m := store16 m (a + 12) d.flags
  store16 m (a + 14) d.next

/-- The fields fit. -/
structure Fits (d : Descriptor) : Prop where
  addr : d.addr < 2 ^ 32
  addrHigh : d.addrHigh < 2 ^ 32
  len : d.len < 2 ^ 32
  flags : d.flags < 2 ^ 16
  next : d.next < 2 ^ 16

/-- A descriptor takes sixteen bytes. -/
theorem store_other {m : Bytes} {a x : Nat} {d : Descriptor} (h : x < a ∨ a + 16 ≤ x) :
    store m a d x = m x := by
  simp only [store]
  rw [store16_other (by omega), store16_other (by omega), store32_other (by omega),
    store32_other (by omega), store32_other (by omega)]

theorem load_congr {m m' : Bytes} {a : Nat} (h : ∀ x, a ≤ x → x < a + 16 → m' x = m x) :
    load m' a = load m a := by
  simp only [load, mk.injEq]
  refine ⟨le32_congr ?_, le32_congr ?_, le32_congr ?_, le16_congr ?_, le16_congr ?_⟩ <;>
    exact fun x h₁ h₂ => h x (by omega) (by omega)

/-- A descriptor whose fields fit is read back. -/
theorem load_store (m : Bytes) (a : Nat) {d : Descriptor} (h : d.Fits) :
    load (store m a d) a = d := by
  obtain ⟨addr, addrHigh, len, flags, next⟩ := d
  simp only [load, store, mk.injEq]
  -- each field: the stores after its own are elsewhere
  refine ⟨?_, ?_, ?_, ?_, le16_store16 _ _ h.next⟩
  · rw [le32_store16_other (by omega), le32_store16_other (by omega),
      le32_store32_other (by omega), le32_store32_other (by omega), le32_store32 _ _ h.addr]
  · rw [le32_store16_other (by omega), le32_store16_other (by omega),
      le32_store32_other (by omega), le32_store32 _ _ h.addrHigh]
  · rw [le32_store16_other (by omega), le32_store16_other (by omega), le32_store32 _ _ h.len]
  · rw [le16_store16_other (by omega), le16_store16 _ _ h.flags]

end Descriptor

/-! ### The device -/

/-- A disk behind a legacy virtio queue: what it offers, what the driver has set, and how far it is
in the two rings. -/
structure VirtioDevice where
  features : UInt32
  queueMax : UInt16
  capacity : UInt64
  disk : Nat → Bytes
  driverFeatures : Nat
  queueSelect : Nat
  pfn : Nat
  status : Nat
  isr : Nat
  notified : Bool
  lastAvail : Nat
  usedIdx : Nat

/-- A request the device has fetched: the head of its chain, the sector, and where the memory has
the buffer and the status byte. -/
structure VirtioRequest where
  head : Nat
  sector : Nat
  data : Nat
  status : Nat

/-- How the device ends a request: the status byte, and the bytes it leaves in the buffer when that
is an error. -/
structure VirtioAnswer where
  status : UInt8
  data : Bytes

namespace VirtioDevice

/-- The registers, by their offset. -/
def reg (d : VirtioDevice) : Nat → Nat
  | 0 => d.features.toNat
  | 12 => if d.queueSelect = 0 then d.queueMax.toNat else 0
  | 18 => d.status
  | 19 => d.isr
  | 20 => d.capacity.toNat % 2 ^ 32
  | 24 => d.capacity.toNat / 2 ^ 32
  | _ => 0

/-- After a reset the device has no queue and no notification. -/
def reset (d : VirtioDevice) : VirtioDevice :=
  { d with driverFeatures := 0, queueSelect := 0, pfn := 0, status := 0, isr := 0,
           notified := false, lastAvail := 0, usedIdx := 0 }

/-- Writing a register. -/
def setReg (d : VirtioDevice) : Nat → Nat → VirtioDevice
  | 4, value => { d with driverFeatures := value }
  | 8, value => { d with pfn := value }
  | 14, value => { d with queueSelect := value }
  | 16, value => if value = 0 then { d with notified := true } else d
  | 18, value => if value = 0 then d.reset else { d with status := value }
  | _, _ => d

/-- Reading the interrupt status clears it. -/
def readIsr (d : VirtioDevice) : VirtioDevice := { d with isr := 0 }

@[simp]
theorem setReg_disk (d : VirtioDevice) (offset value : Nat) :
    (d.setReg offset value).disk = d.disk := by
  unfold setReg
  split <;> first | rfl | (split <;> rfl)

/-- The device has not been notified since its reset, and has done no request. -/
structure Unused (d : VirtioDevice) : Prop where
  notified : d.notified = false
  lastAvail : d.lastAvail = 0
  usedIdx : d.usedIdx = 0

theorem reset_unused (d : VirtioDevice) : d.reset.Unused := ⟨rfl, rfl, rfl⟩

/-- Only a notification starts the device. -/
theorem Unused.setReg {d : VirtioDevice} (h : d.Unused) {offset : Nat} (ho : offset ≠ 16)
    (value : Nat) : (d.setReg offset value).Unused := by
  unfold VirtioDevice.setReg
  split
  · exact ⟨h.notified, h.lastAvail, h.usedIdx⟩
  · exact ⟨h.notified, h.lastAvail, h.usedIdx⟩
  · exact ⟨h.notified, h.lastAvail, h.usedIdx⟩
  · exact absurd rfl ho
  · split
    · exact d.reset_unused
    · exact ⟨h.notified, h.lastAvail, h.usedIdx⟩
  · exact h

variable (bus : Nat → Nat) (d : VirtioDevice) (m : Bytes)

/-- The address of the descriptor table. -/
def queueAt : Nat := bus (d.pfn * 4096)

/-- The address of the ring of available requests. -/
def availAt : Nat := d.queueAt bus + 16 * d.queueMax.toNat

/-- The address of the ring of used requests: the next page. -/
def usedAt : Nat := d.queueAt bus + (18 * d.queueMax.toNat + 6 + 4095) / 4096 * 4096

/-- The chain of three descriptors asks for one sector. -/
def AsksSector (header data status : Descriptor) : Prop :=
  header.addrHigh = 0 ∧ header.len = 16 ∧ header.flags = 1 ∧
    data.addrHigh = 0 ∧ data.len = 512 ∧ data.flags = 3 ∧
    status.addrHigh = 0 ∧ status.len = 1 ∧ status.flags = 2 ∧ le32 m (bus header.addr) = 0

instance (header data status : Descriptor) : Decidable (AsksSector bus m header data status) :=
  inferInstanceAs (Decidable (_ ∧ _))

/-- The oldest available request. -/
def fetch : Option VirtioRequest :=
  if d.notified = true ∧ d.pfn ≠ 0 ∧ le16 m (d.availAt bus + 2) ≠ d.lastAvail then
    let head := le16 m (d.availAt bus + 2 * (2 + d.lastAvail % d.queueMax.toNat))
    let header := Descriptor.load m (d.queueAt bus + 16 * head)
    let data := Descriptor.load m (d.queueAt bus + 16 * header.next)
    let status := Descriptor.load m (d.queueAt bus + 16 * data.next)
    if AsksSector bus m header data status then
      some ⟨head, le32 m (bus header.addr + 8) + 2 ^ 32 * le32 m (bus header.addr + 12),
        bus data.addr, bus status.addr⟩
    else none
  else none

/-- The memory after the request has been done. -/
def completed (r : VirtioRequest) (a : VirtioAnswer) : Bytes :=
  let m := storeBytes m r.data 512 (if a.status = 0 then d.disk r.sector else a.data)
  let m := Function.update m r.status a.status
  let element := d.usedAt bus + 4 + 8 * (d.usedIdx % d.queueMax.toNat)
  let m := store32 m element r.head
  let m := store32 m (element + 4) 513
  store16 m (d.usedAt bus + 2) ((d.usedIdx + 1) % 2 ^ 16)

/-- The device after a request; it interrupts unless the flags of the ring ask for no interrupts. -/
def advanced : VirtioDevice :=
  { d with lastAvail := (d.lastAvail + 1) % 2 ^ 16, usedIdx := (d.usedIdx + 1) % 2 ^ 16,
           isr := if le16 m (d.availAt bus) % 2 = 0 then 1 else d.isr }

/-- The device takes the oldest available request and does it. -/
def serve (a : VirtioAnswer) : Bytes × VirtioDevice :=
  match d.fetch bus m with
  | none => (m, d)
  | some r => (d.completed bus m r a, d.advanced bus m)

variable {bus d m}

/-- With no request available the device does nothing. -/
theorem serve_idle (h : le16 m (d.availAt bus + 2) = d.lastAvail) (a : VirtioAnswer) :
    d.serve bus m a = (m, d) := by
  have hf : d.fetch bus m = none := if_neg fun hc => hc.2.2 h
  rw [serve, hf]

/-- Without a notification the device does nothing. -/
theorem serve_unnotified (h : d.notified = false) (a : VirtioAnswer) :
    d.serve bus m a = (m, d) := by
  have hf : d.fetch bus m = none := if_neg fun hc => by simp [h] at hc
  rw [serve, hf]

/-! ### What the device writes -/

variable {r : VirtioRequest} {a : VirtioAnswer} {x : Nat}

/-- The device counts the request as used. -/
theorem completed_index : le16 (d.completed bus m r a) (d.usedAt bus + 2) =
    (d.usedIdx + 1) % 2 ^ 16 := le16_store16 _ _ (Nat.mod_lt _ (by decide))

/-- The used ring is written in its index and its elements. -/
theorem completed_ring (hn : 0 < d.queueMax.toNat)
    (hx : x < d.usedAt bus + 2 ∨ d.usedAt bus + 4 + 8 * d.queueMax.toNat ≤ x) :
    d.completed bus m r a x = Function.update
      (storeBytes m r.data 512 (if a.status = 0 then d.disk r.sector else a.data)) r.status
        a.status x := by
  have hlt : d.usedIdx % d.queueMax.toNat < d.queueMax.toNat := Nat.mod_lt _ hn
  unfold completed
  rw [store16_other (by omega), store32_other (by omega), store32_other (by omega)]

/-- The status of the answer is written. -/
theorem completed_status (hn : 0 < d.queueMax.toNat) (hx : r.status < d.usedAt bus + 2 ∨
    d.usedAt bus + 4 + 8 * d.queueMax.toNat ≤ r.status) :
    d.completed bus m r a r.status = a.status := by
  rw [completed_ring hn hx, Function.update_self]

/-- The buffer has the sector, or what the device leaves there when it fails. -/
theorem completed_data {i : Nat} (hi : i < 512) (hn : 0 < d.queueMax.toNat)
    (hx : r.data + i < d.usedAt bus + 2 ∨ d.usedAt bus + 4 + 8 * d.queueMax.toNat ≤ r.data + i)
    (hs : r.data + i ≠ r.status) :
    d.completed bus m r a (r.data + i) =
      if a.status = 0 then d.disk r.sector i else a.data i := by
  rw [completed_ring hn hx, Function.update_of_ne hs, storeBytes_add hi]
  split <;> rfl

/-- A completion writes the used ring, the buffer and the status alone. -/
theorem completed_other (hn : 0 < d.queueMax.toNat)
    (hx : x < d.usedAt bus + 2 ∨ d.usedAt bus + 4 + 8 * d.queueMax.toNat ≤ x)
    (hd : x < r.data ∨ r.data + 512 ≤ x) (hs : x ≠ r.status) :
    d.completed bus m r a x = m x := by
  rw [completed_ring hn hx, Function.update_of_ne hs, storeBytes_other hd]

end VirtioDevice

end Arunos
