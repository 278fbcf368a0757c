import Arunos.Arch.Virtio
import Arunos.Fs.Block
import Arunos.Support.System

/-!
# Arch — Requests — every answer belongs to its request

`block_read` goes through three states.  The request is available and the device has not taken it
(`Pending`), the device has served it (`Served`), and the answer is acknowledged, which is a quiet
state again.  The poll loop ends in the second, or in the first after ten million polls, and then
the disk is given up (`Ends`).

`driver` is the driver and the device after `block_init`, under any reads, with the device free to
act between them too.  `requests_matched` is what every run keeps: between two reads nothing is in
flight, a read returns its own sector, and after a timeout there is no further request.

With its invariant the driver is a block device for the filesystem (`VirtioDisk`), whose contents
are fixed whatever the device does.
-/

namespace Arunos

namespace Virtio

variable {s : Virtio} {disk : Nat → Bytes} {sector : Nat} {a : VirtioAnswer}

/-! ### A request -/

/-- The memory `m` has the request for `sector` available. -/
structure Available (s : Virtio) (sector : Nat) (m : Bytes) : Prop where
  type : le32 m s.request = 0
  sector : le32 m (s.request + 8) = sector
  header : Descriptor.load m s.queue = ⟨v2p s.request, 0, 16, 1, 1⟩
  data : Descriptor.load m (s.queue + 16) = ⟨v2p (s.request + 16), 0, 512, 3, 2⟩
  status : Descriptor.load m (s.queue + 32) = ⟨v2p (s.request + 528), 0, 1, 2, 0⟩
  slot : le16 m s.availSlot = 0
  avail : le16 m (s.avail + 2) = (s.completed + 1) % 2 ^ 16
  used : le16 m (s.used + 2) = s.completed

theorem fits_v2p (a : Nat) {len flags next : Nat} (h₁ : len < 2 ^ 32) (h₂ : flags < 2 ^ 16)
    (h₃ : next < 2 ^ 16) : Descriptor.Fits ⟨v2p a, 0, len, flags, next⟩ :=
  ⟨u32_lt _, Nat.two_pow_pos 32, h₁, h₂, h₃⟩

theorem update_other {m : Bytes} {a x : Nat} {b : UInt8} (h : x < a ∨ a + 1 ≤ x) :
    Function.update m a b x = m x := Function.update_of_ne (by omega) _ _

/-- The request is filled in and available: each word is the last store to it. -/
theorem requestRam_available (hp : s.Placed) (hr : s.Ready) (hi : s.Indices s.completed)
    (hs : sector < s.sectors) : s.Available sector (s.requestRam sector) := by
  obtain ⟨hav, hus, hend⟩ := hr.parts
  obtain ⟨hlo, hhi⟩ := hr.slot
  have hapart := hp.apart
  have hthree := hr.three_le
  unfold requestRam
  extract_lets m₁ m₂ m₃ m₄ m₅ m₆ m₇
  refine ⟨?_, ?_, ?_, ?_, ?_, ?_, le16_store16 _ _ (Nat.mod_lt _ (by decide)), ?_⟩
  · refine (le32_congr fun x h₁ h₂ => ?_).trans (le32_store32 s.ram s.request (by decide : 0 < _))
    simp (disch := omega) only [m₁, m₂, m₃, m₄, m₅, m₆, m₇, store16_other,
      Descriptor.store_other, update_other, store32_other]
  · refine (le32_congr fun x h₁ h₂ => ?_).trans
      (le32_store32 m₁ (s.request + 8) (hs.trans hr.sectors_lt))
    simp (disch := omega) only [m₂, m₃, m₄, m₅, m₆, m₇, store16_other, Descriptor.store_other,
      update_other]
  · refine (Descriptor.load_congr fun x h₁ h₂ => ?_).trans
      (Descriptor.load_store m₃ s.queue (fits_v2p _ (by decide) (by decide) (by decide)))
    simp (disch := omega) only [m₄, m₅, m₆, m₇, store16_other, Descriptor.store_other]
  · refine (Descriptor.load_congr fun x h₁ h₂ => ?_).trans
      (Descriptor.load_store m₄ (s.queue + 16) (fits_v2p _ (by decide) (by decide) (by decide)))
    simp (disch := omega) only [m₅, m₆, m₇, store16_other, Descriptor.store_other]
  · refine (Descriptor.load_congr fun x h₁ h₂ => ?_).trans
      (Descriptor.load_store m₅ (s.queue + 32) (fits_v2p _ (by decide) (by decide) (by decide)))
    simp (disch := omega) only [m₆, m₇, store16_other]
  · refine (le16_congr fun x h₁ h₂ => ?_).trans (le16_store16 m₆ s.availSlot (by decide : 0 < _))
    simp (disch := omega) only [m₇, store16_other]
  · refine (le16_congr fun x h₁ h₂ => ?_).trans hi.used
    simp (disch := omega) only [m₁, m₂, m₃, m₄, m₅, m₆, m₇, store16_other,
      Descriptor.store_other, update_other, store32_other]

/-- Nobody writes the upper half of the sector number. -/
theorem requestRam_sectorHigh (hp : s.Placed) (hr : s.Ready) {x : Nat} (h₁ : s.request + 12 ≤ x)
    (h₂ : x < s.request + 16) : s.requestRam sector x = s.ram x := by
  obtain ⟨hav, hus, hend⟩ := hr.parts
  obtain ⟨hlo, hhi⟩ := hr.slot
  have hapart := hp.apart
  have hthree := hr.three_le
  simp (disch := omega) only [requestRam, store16_other, Descriptor.store_other, update_other,
    store32_other]

/-- The request for `sector` is available and the device, notified, has not taken it. -/
structure Pending (disk : Nat → Bytes) (s : Virtio) (sector : Nat) : Prop where
  placed : s.Placed
  ready : s.Ready
  contents : s.device.disk = disk
  available : s.Available sector s.ram
  lastAvail : s.device.lastAvail = s.completed
  usedIdx : s.device.usedIdx = s.completed
  notified : s.device.notified = true

theorem Quiet.publish (h : s.Quiet disk) (hs : sector < s.sectors) :
    Pending disk (s.publish sector) sector := by
  obtain ⟨hr, hi⟩ := h.ready (by omega)
  have ha := requestRam_available h.placed hr hi hs
  have hram : ∀ x, s.request + 12 ≤ x → x < s.request + 16 → s.requestRam sector x = s.ram x :=
    fun x => requestRam_sectorHigh h.placed hr
  unfold Virtio.publish
  generalize s.requestRam sector = m at *
  exact ⟨h.placed.write rfl rfl hram, ⟨hr.size, hr.size_le, hr.three_le, hr.max, hr.pfn, hr.avail,
    hr.used, hr.sectors_lt, hr.completed_lt⟩, h.contents, ⟨ha.type, ha.sector, ha.header, ha.data,
    ha.status, ha.slot, ha.avail, ha.used⟩, hi.lastAvail, hi.usedIdx, rfl⟩

/-- The index of the ring is past the device's. -/
theorem Pending.index_ne (h : s.Pending disk sector) :
    (s.completed + 1) % 2 ^ 16 ≠ s.completed := by
  have := h.ready.completed_lt
  omega

/-- The request of the driver, as the device should see it. -/
def ownRequest (s : Virtio) (sector : Nat) : VirtioRequest :=
  ⟨0, sector, s.request + 16, s.request + 528⟩

/-- The device finds the request. -/
theorem Pending.fetch (h : s.Pending disk sector) :
    s.device.fetch p2v s.ram = some (s.ownRequest sector) := by
  have hp := h.placed
  have ha := h.available
  have hreq : p2v (v2p s.request) = s.request :=
    p2v_v2p hp.request_lo (by have := hp.request_hi; omega)
  have hdata : p2v (v2p (s.request + 16)) = s.request + 16 :=
    p2v_v2p (by have := hp.request_lo; omega) (by have := hp.request_hi; omega)
  have hstatus : p2v (v2p (s.request + 528)) = s.request + 528 :=
    p2v_v2p (by have := hp.request_lo; omega) (by have := hp.request_hi; omega)
  have hpfn : s.device.pfn ≠ 0 := by
    have h₁ := hp.queue_lo
    have h₂ := hp.queue_hi
    have h₃ := hp.aligned
    rw [h.ready.pfn, v2p_eq (by omega) (by omega)]
    omega
  have hslot : s.avail + 2 * (2 + s.completed % s.queueSize) = s.availSlot := by
    rw [availSlot, h.ready.mask]
  have hne := h.index_ne
  rw [VirtioDevice.fetch, if_pos ⟨h.notified, hpfn, by
    rw [h.ready.availAt hp, ha.avail, h.lastAvail]; exact hne⟩]
  simp only [h.ready.availAt hp, h.ready.queueAt hp, h.ready.max, h.lastAvail, hslot, ha.slot,
    Nat.mul_zero, Nat.add_zero, ha.header, Nat.mul_one, ha.data, ha.status, hreq, hdata, hstatus,
    ha.sector, hp.sectorHigh]
  rw [if_pos, ownRequest]
  exact ⟨rfl, rfl, rfl, rfl, rfl, rfl, rfl, rfl, rfl, by rw [hreq]; exact ha.type⟩

/-- The device has served the request for `sector` with the answer `a`, after `n` requests. -/
structure Served (disk : Nat → Bytes) (s : Virtio) (sector n : Nat) (a : VirtioAnswer) : Prop where
  placed : s.Placed
  ready : s.Ready
  contents : s.device.disk = disk
  completed : s.completed = n
  indices : s.Indices ((n + 1) % 2 ^ 16)
  status : s.ram (s.request + 528) = a.status
  data : a.status = 0 → ∀ i < 512, s.ram (s.request + 16 + i) = disk sector i

/-- The device writes `data`, `status` and the used ring. -/
theorem Pending.serve (h : s.Pending disk sector) (a : VirtioAnswer) :
    Served disk (s.serve a) sector s.completed a := by
  have hp := h.placed
  have hr := h.ready
  obtain ⟨hav, hus, hend⟩ := hr.parts
  have hapart := hp.apart
  have hused := hr.usedAt hp
  have hmax := hr.max
  have hn : 0 < s.device.queueMax.toNat := by have := hr.three_le; omega
  let m := s.device.completed p2v s.ram (s.ownRequest sector) a
  have hserve : s.serve a = { s with ram := m, device := s.device.advanced p2v s.ram } := by
    rw [Virtio.serve, VirtioDevice.serve, h.fetch]
  have hother : ∀ x, x < s.used + 2 ∨ s.queue + 12288 ≤ x →
      x < s.request + 16 ∨ s.request + 529 ≤ x → m x = s.ram x := fun x h₁ h₂ =>
    VirtioDevice.completed_other hn (by omega) (by dsimp only [ownRequest]; omega)
      (by dsimp only [ownRequest]; omega)
  have hstatus : m (s.request + 528) = a.status :=
    VirtioDevice.completed_status hn (by dsimp only [ownRequest]; omega)
  have hdata : ∀ i < 512,
      m (s.request + 16 + i) = if a.status = 0 then disk sector i else a.data i := fun i hi => by
      rw [← h.contents]
      exact VirtioDevice.completed_data hi hn (by dsimp only [ownRequest]; omega)
        (by dsimp only [ownRequest]; omega)
  have hindex : le16 m (s.used + 2) = (s.completed + 1) % 2 ^ 16 := by
    rw [← hused, VirtioDevice.completed_index, h.usedIdx]
  have havail : le16 m (s.avail + 2) = (s.completed + 1) % 2 ^ 16 := by
    rw [← h.available.avail]
    exact le16_congr fun x h₁ h₂ => hother x (by omega) (by omega)
  rw [hserve]
  generalize m = m' at *
  refine ⟨hp.write rfl rfl fun x h₁ h₂ => hother x (by omega) (by omega),
    ⟨hr.size, hr.size_le, hr.three_le, hr.max, hr.pfn, hr.avail, hr.used, hr.sectors_lt,
      hr.completed_lt⟩, h.contents, rfl, ⟨?_, ?_, havail, hindex⟩, hstatus,
    fun h₀ i hi => (hdata i hi).trans (if_pos h₀)⟩
  · exact congrArg (fun n => (n + 1) % 2 ^ 16) h.lastAvail
  · exact congrArg (fun n => (n + 1) % 2 ^ 16) h.usedIdx

/-- **The poll loop**: it ends at the poll before which the device has answered, if there is one. -/
theorem Pending.pollLoop (h : s.Pending disk sector) (answers : Nat → Option VirtioAnswer)
    (left timeout : Nat) :
    (∀ j, timeout ≤ j → j < timeout + left → answers j = none) ∧
        pollLoop answers left timeout s = (timeout + left, s) ∨
      ∃ i < timeout + left, (∀ j, timeout ≤ j → j < i → answers j = none) ∧
        ∃ a, answers i = some a ∧ pollLoop answers left timeout s = (i, s.serve a) := by
  induction left generalizing timeout with
  | zero => exact .inl ⟨fun j h₁ h₂ => by omega, rfl⟩
  | succ left ih =>
      rw [Virtio.pollLoop]
      cases hans : answers timeout with
      | none =>
          have hnone : ∀ {j}, timeout ≤ j → ¬ timeout + 1 ≤ j → answers j = none := by
            intro j h₁ h₂
            obtain rfl : j = timeout := by omega
            exact hans
          rw [act, if_neg (not_not.mpr h.available.used)]
          rcases ih (timeout + 1) with ⟨hj, hl⟩ | ⟨i, hi, hj, a, ha, hl⟩
          · refine .inl ⟨fun j h₁ h₂ => ?_, by rw [hl, Nat.add_right_comm, Nat.add_assoc]⟩
            by_cases h₃ : timeout + 1 ≤ j
            · exact hj j h₃ (by omega)
            · exact hnone h₁ h₃
          · refine .inr ⟨i, by omega, fun j h₁ h₂ => ?_, a, ha, hl⟩
            by_cases h₃ : timeout + 1 ≤ j
            · exact hj j h₃ h₂
            · exact hnone h₁ h₃
      | some a =>
          have hs := h.serve a
          rw [act, if_pos]
          · exact .inr ⟨timeout, by omega, fun j h₁ h₂ => by omega, a, hans, rfl⟩
          · rw [hs.indices.used, hs.completed]
            exact h.index_ne

/-! ### Reads -/

theorem sectorBytes_congr {b c : Bytes} (h : ∀ i < 512, b i = c i) :
    sectorBytes b = sectorBytes c := by
  funext i
  unfold sectorBytes
  split
  · exact h i ‹_›
  · rfl

/-- The state after an answered request. -/
def acknowledged (s : Virtio) : Virtio :=
  { s with completed := (s.completed + 1) % 2 ^ 16, device := s.device.readIsr }

/-- The state after a timeout. -/
def givenUp (s : Virtio) : Virtio :=
  { s.setReg 18 0 with sectors := 0 }

/-- **The three ways `block_read` ends**: no such sector, no answer in time, or an answer. -/
inductive Ends (disk : Nat → Bytes) (answers : Nat → Option VirtioAnswer) (s : Virtio)
    (sector : Nat) : Option Bytes × Virtio → Prop where
  | outside (hs : s.sectors ≤ sector) : Ends disk answers s sector (none, s)
  | timeout (hs : sector < s.sectors) (hj : ∀ j < 10000000, answers j = none) :
      Ends disk answers s sector (none, ((s.publish sector).act (answers 10000000)).givenUp)
  | answered {i : Nat} {a : VirtioAnswer} (hs : sector < s.sectors) (hi : i < 10000000)
      (hj : ∀ j < i, answers j = none) (ha : answers i = some a) :
      Ends disk answers s sector
        (if a.status = 0 then some (sectorBytes (disk sector)) else none,
          ((s.publish sector).serve a).acknowledged)

theorem Quiet.ends (h : s.Quiet disk) (answers : Nat → Option VirtioAnswer) (sector : Nat) :
    Ends disk answers s sector (s.blockRead answers sector) := by
  by_cases hs : sector ≥ s.sectors
  · rw [blockRead, if_pos hs]
    exact .outside hs
  have hs' : sector < s.sectors := by omega
  have hp := h.publish hs'
  rw [blockRead, if_neg hs]
  rcases hp.pollLoop answers 10000000 0 with ⟨hj, hl⟩ | ⟨i, hi, hj, a, ha, hl⟩
  · rw [hl]
    exact .timeout hs' fun j h₁ => hj j (Nat.zero_le j) (by omega)
  · have hserved := hp.serve a
    have hstatus := hserved.status
    have hends : Ends disk answers s sector _ :=
      .answered hs' (by omega) (fun j => hj j (Nat.zero_le j)) ha
    rw [hl]
    generalize (s.publish sector).serve a = t at *
    dsimp only
    rw [if_neg (by omega)]
    by_cases h₀ : a.status = 0
    · rw [if_neg (not_not.mpr (hstatus.trans h₀)), sectorBytes_congr (hserved.data h₀)]
      rw [if_pos h₀] at hends
      exact hends
    · rw [if_pos (by rw [hstatus]; exact h₀)]
      rw [if_neg h₀] at hends
      exact hends

/-- A timeout is ten million polls without an answer. -/
theorem Quiet.timesOut_iff (h : s.Quiet disk) {answers : Nat → Option VirtioAnswer}
    (hs : sector < s.sectors) :
    TimesOut answers s sector ↔ ∀ j < 10000000, answers j = none := by
  rw [TimesOut, and_iff_right hs]
  rcases (h.publish hs).pollLoop answers 10000000 0 with ⟨hj, hl⟩ | ⟨i, hi, hj, a, ha, hl⟩
  · rw [hl]
    exact iff_of_true rfl fun j h₁ => hj j (Nat.zero_le j) (by omega)
  · rw [hl]
    refine iff_of_false (by dsimp only; omega) fun hnone => ?_
    rw [hnone i (by omega)] at ha
    cases ha

theorem Placed.givenUp (hp : s.Placed) : Quiet s.device.disk s.givenUp :=
  have hu := hp.reset.setSectors 0
  ⟨hu.placed, idle_of_unnotified hu.device.notified, hu.contents, fun h => absurd rfl h⟩

theorem Served.quiet {n : Nat} (h : s.Served disk sector n a) : Quiet disk s.acknowledged := by
  have hr := h.ready
  have hi := h.indices
  have hc : s.acknowledged.completed = (n + 1) % 2 ^ 16 := by
    rw [← h.completed]
    rfl
  have hp : s.acknowledged.Placed := h.placed.write rfl rfl fun _ _ _ => rfl
  have hready : s.acknowledged.Ready := ⟨hr.size, hr.size_le, hr.three_le, hr.max, hr.pfn, hr.avail,
    hr.used, hr.sectors_lt, Nat.mod_lt _ (by decide)⟩
  have hindices : s.acknowledged.Indices s.acknowledged.completed := by
    rw [hc]
    exact ⟨hi.lastAvail, hi.usedIdx, hi.avail, hi.used⟩
  refine ⟨hp, idle_of_index ?_, h.contents, fun _ => ⟨hready, hindices⟩⟩
  rw [hready.availAt hp, hindices.avail, hindices.lastAvail]

theorem Pending.act (h : s.Pending disk sector) (answer : Option VirtioAnswer) :
    (s.act answer).Placed ∧ (s.act answer).device.disk = disk := by
  cases answer with
  | none => exact ⟨h.placed, h.contents⟩
  | some a => exact ⟨(h.serve a).placed, (h.serve a).contents⟩

/-- **A read leaves nothing in flight**, whichever way it ends. -/
theorem Quiet.read (h : s.Quiet disk) (answers : Nat → Option VirtioAnswer) (sector : Nat) :
    Quiet disk (s.blockRead answers sector).2 := by
  have he := h.ends answers sector
  generalize s.blockRead answers sector = r at *
  cases he with
  | outside hs => exact h
  | timeout hs hj =>
      obtain ⟨hp, hd⟩ := (h.publish hs).act (answers 10000000)
      rw [← hd]
      exact hp.givenUp
  | answered hs hi hj ha => exact ((h.publish hs).serve _).quiet

/-- **A read that returns true** has copied its own sector. -/
theorem Quiet.read_eq (h : s.Quiet disk) {answers : Nat → Option VirtioAnswer} {b : Bytes}
    (hb : (s.blockRead answers sector).1 = some b) : b = sectorBytes (disk sector) := by
  have he := h.ends answers sector
  generalize s.blockRead answers sector = r at *
  cases he with
  | outside hs => cases hb
  | timeout hs hj => cases hb
  | answered hs hi hj ha =>
      dsimp only at hb
      split at hb
      · exact (Option.some.inj hb).symm
      · cases hb

/-- A read is true when the device's first answer comes in time and is no error. -/
theorem Quiet.read_answered (h : s.Quiet disk) {answers : Nat → Option VirtioAnswer} {i : Nat}
    (hs : sector < s.sectors) (hi : i < 10000000) (hj : ∀ j < i, answers j = none)
    (ha : answers i = some a) (h₀ : a.status = 0) :
    (s.blockRead answers sector).1 = some (sectorBytes (disk sector)) := by
  have he := h.ends answers sector
  generalize s.blockRead answers sector = r at *
  cases he with
  | outside hs' => omega
  | timeout _ hnone =>
      rw [hnone i hi] at ha
      cases ha
  | @answered i' a' _ hi' hj' ha' =>
      obtain rfl : i' = i := by
        by_contra hne
        rcases Nat.lt_or_gt_of_ne hne with hlt | hlt
        · rw [hj i' hlt] at ha'
          cases ha'
        · rw [hj' i hlt] at ha
          cases ha
      obtain rfl : a' = a := Option.some.inj (ha'.symm.trans ha)
      exact if_pos h₀

/-- Without a disk there is no request. -/
theorem blockRead_dead (h : s.sectors = 0) (answers : Nat → Option VirtioAnswer) (sector : Nat) :
    s.blockRead answers sector = (none, s) := if_pos (by omega)

theorem Quiet.timesOut_dead (h : s.Quiet disk) {answers : Nat → Option VirtioAnswer}
    (ht : TimesOut answers s sector) : (s.blockRead answers sector).2.sectors = 0 := by
  have hnone := (h.timesOut_iff ht.1).mp ht
  have he := h.ends answers sector
  generalize s.blockRead answers sector = r at *
  cases he with
  | outside hs => exact absurd ht.1 (by omega)
  | timeout hs hj => rfl
  | answered hs hi hj ha =>
      rw [hnone _ hi] at ha
      cases ha

end Virtio

/-! ### Runs -/

/-- What happens to the driver and the device. -/
inductive VirtioEvent where
  | read (sector : Nat) (answers : Nat → Option VirtioAnswer)
  | device (a : VirtioAnswer)

/-- The driver and a device with the contents `disk`, after `block_init`: reads, and the device
between them. -/
def driver (disk : Nat → Bytes) : System Virtio VirtioEvent where
  init s := ∃ s₀ : Virtio, s₀.Placed ∧ s₀.device.notified = false ∧ s₀.device.disk = disk ∧
    s = s₀.blockInit.2
  step s e s' :=
    match e with
    | .read sector answers => s' = (s.blockRead answers sector).2
    | .device a => s' = s.serve a

variable {disk : Nat → Bytes} {s s' : Virtio}

theorem driver_quiet (h : (driver disk).Reachable s) : s.Quiet disk := by
  refine h.invariant (I := Virtio.Quiet disk) ?_ ?_
  · rintro s ⟨s₀, hp, hn, rfl, rfl⟩
    exact Virtio.blockInit_quiet hp (Virtio.idle_of_unnotified hn)
  · intro s e s' hq hs
    cases e with
    | read sector answers => exact hs ▸ hq.read answers sector
    | device a => exact (hs.trans (hq.idle a)) ▸ hq

/-- A disk given up stays given up. -/
theorem driver_dead (hs : s.sectors = 0) (h : ((driver disk).start s).Reachable s') :
    s'.sectors = 0 := by
  refine h.invariant (I := fun s => s.sectors = 0) (fun s' hi => hi ▸ hs) ?_
  intro s e s' hz hstep
  cases e with
  | read sector answers =>
      rw [show s' = (s.blockRead answers sector).2 from hstep, Virtio.blockRead_dead hz]
      exact hz
  | device a => exact hstep ▸ hz

/-- **The driver and the device agree on every request.**  Between two reads nothing is in flight; a
read that returns true has copied its own sector; after a timeout no read makes a request or returns
true; and the slot a request is written to is in the ring, which is in the queue. -/
theorem requests_matched (h : (driver disk).Reachable s) :
    (s.sectors ≠ 0 →
      le16 s.ram (s.used + 2) = s.completed ∧ le16 s.ram (s.avail + 2) = s.completed) ∧
    (∀ sector answers b, (s.blockRead answers sector).1 = some b →
      b = sectorBytes (disk sector)) ∧
    (∀ sector answers, Virtio.TimesOut answers s sector →
      ∀ s', ((driver disk).start (s.blockRead answers sector).2).Reachable s' →
        ∀ sector' answers', s'.blockRead answers' sector' = (none, s')) ∧
    (s.sectors ≠ 0 → s.queue + 48 ≤ s.avail ∧ s.avail + 4 ≤ s.availSlot ∧
      s.availSlot + 2 ≤ s.avail + 4 + 2 * s.queueSize ∧
      s.avail + 4 + 2 * s.queueSize ≤ s.used ∧ s.used ≤ s.queue + 12288) := by
  have hq := driver_quiet h
  refine ⟨fun hs => ?_, fun sector answers b hb => hq.read_eq hb, ?_, fun hs => ?_⟩
  · obtain ⟨-, hi⟩ := hq.ready hs
    exact ⟨hi.used, hi.avail⟩
  · intro sector answers ht s' hs' sector' answers'
    exact Virtio.blockRead_dead (driver_dead (hq.timesOut_dead ht) hs') answers' sector'
  · obtain ⟨hr, -⟩ := hq.ready hs
    have hthree := hr.three_le
    have hslot := hr.slot
    have hparts := hr.parts
    omega

/-- A disk of 100 sectors behind a queue of 8, before `block_init`. -/
def smallDriver : Virtio where
  ram _ := 0
  queue := 0x80100000
  request := 0x80104000
  avail := 0
  used := 0
  queueSize := 0
  completed := 0
  sectors := 0
  config slot _ := if slot = 3 then 0x10011af4 else 0
  device := ⟨0, 8, 100, fun sector _ => UInt8.ofNat sector, 0, 0, 0, 0, 0, false, 0, 0⟩

/-- The first read of the small disk, of sector 5, answered at the third poll. -/
theorem requests_matched_small :
    (driver smallDriver.device.disk).Reachable smallDriver.blockInit.2 ∧
    smallDriver.blockInit.2.sectors = 100 ∧
    le16 smallDriver.blockInit.2.ram (smallDriver.blockInit.2.used + 2) = 0 ∧
    (smallDriver.blockInit.2.blockRead (fun i => if i = 2 then some ⟨0, fun _ => 0⟩ else none)
      5).1 = some (sectorBytes fun _ => 5) := by
  have hp : smallDriver.Placed := ⟨by decide, by decide, by decide, by decide, by decide, by decide,
    by decide⟩
  have hr : (driver smallDriver.device.disk).Reachable smallDriver.blockInit.2 :=
    .init ⟨smallDriver, hp, rfl, rfl, rfl⟩
  have hs : smallDriver.blockInit.2.sectors = 100 := by decide +kernel
  have hc : smallDriver.blockInit.2.completed = 0 := by decide +kernel
  obtain ⟨hindex, hread, -, -⟩ := requests_matched hr
  refine ⟨hr, hs, (hindex (by rw [hs]; decide)).1.trans hc, ?_⟩
  exact (driver_quiet hr).read_answered (i := 2) (by rw [hs]; decide) (by decide)
    (fun j hj => if_neg (by omega)) rfl rfl

/-! ### The driver under the filesystem -/

/-- The driver between two reads, and what its device is going to do at each poll of each read. -/
structure VirtioDisk (disk : Nat → Bytes) where
  state : Virtio
  future : Nat → Nat → Option VirtioAnswer
  quiet : state.Quiet disk

/-- The functions of `block.h` that `virtio.c` defines. -/
instance : BlockDevice (VirtioDisk disk) where
  blockInit s := (s.state.blockInit.1, ⟨s.state.blockInit.2, s.future, by
    have h := Virtio.blockInit_quiet s.quiet.placed s.quiet.idle
    rwa [s.quiet.contents] at h⟩)
  blockSectorCount s := s.state.sectors
  blockRead s k := ((s.state.blockRead (s.future 0) k).1,
    ⟨(s.state.blockRead (s.future 0) k).2, fun n => s.future (n + 1), s.quiet.read _ _⟩)

/-- **The contents of the disk are fixed** for the filesystem, whatever the device does. -/
theorem VirtioDisk.holds (disk : Nat → Bytes) :
    Holds (VirtioDisk disk) fun k => sectorBytes (disk k) :=
  fun s _ _ hb => s.quiet.read_eq hb

end Arunos
