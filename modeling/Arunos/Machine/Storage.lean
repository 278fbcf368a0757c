import Arunos.Machine.Alike
import Arunos.Machine.Simulation

/-!
# Machine — Storage — the kernel on its own driver

`Machine.Simulation` takes a disk that never fails.  Here the disk is the driver of `virtio.c`.  If
its device answers each request in time and without an error, the driver answers as the image of
the disk does, and the machine is the abstract system (`prompt_refines_os`).

In general the device answers when it likes or not at all.  The abstract system is the same, with
one more possibility: what uses the disk may fail, that is, `exec` and `dir` may return -1, the
monitor may not start the program, and the start may stop (`unreliable`).  Every run of the machine
is a run of it, event by event (`virtio_refines_os`).  So whatever the device does, a process that
runs a program has the program that the disk has under this name, whole, and a failure is seen by
the caller alone.
-/

namespace Arunos

variable {σ : Type} [BlockDevice σ] {L : Layout} {v : Volume} {m m' : Machine σ}
  {progs : List UInt8 → Option Program} {img : Nat → Bytes}

/-! ### A device that answers -/

omit [BlockDevice σ] in
theorem TwinMachines.view {τ : Type} {S : σ → τ → Prop} {m : Machine σ} {m' : Machine τ}
    (h : TwinMachines S m m') : m.view = m'.view := by
  obtain ⟨cpu, ⟨_⟩⟩ | ⟨⟨_⟩⟩ | ⟨⟨_⟩⟩ := h <;> rfl

/-- **With a device that answers nothing fails.**  If `block_init` finds the disk, whose contents
mount, and the device answers each request in time and without an error, the machine is the
abstract system that starts with the programs on the disk. -/
theorem prompt_refines_os {disk : Nat → Bytes} {n : Nat} {dev : VirtioDisk disk}
    (hready : (blockInit dev).1 = true) (hprompt : (blockInit dev).2.Prompt n)
    (hm : fatInit .zero (⟨⟩ : (virtioImage disk n).Reader) = (true, v, ⟨⟩))
    (hL : L.kernelEnd < 0x81000000) (ram : Bytes) :
    ∃ out k, (cEntry L).run (.initial ram dev) = some (out, k) ∧ ∀ es : List Event,
      (es.foldlM (step L) (leave (fun _ _ => 0) out k)).map Machine.view =
        es.foldlM (Os.step (programNamed (fun k => sectorBytes (disk k)) v))
          (Os.boot (programNamed (fun k => sectorBytes (disk k)) v)) := by
  have hn : n ≠ 0 := by
    rintro rfl
    cases hm
  have himage : ∀ d : (virtioImage disk n).Reader, (blockInit d).1 = true := fun _ =>
    decide_eq_true hn
  have hinit : Agree (fun (s : VirtioDisk disk) (_ : (virtioImage disk n).Reader) => s.Prompt n)
      (blockInit dev) (blockInit (⟨⟩ : (virtioImage disk n).Reader)) := by
    rw [← Prod.mk.eta (p := blockInit dev), hready,
      ← Prod.mk.eta (p := blockInit (⟨⟩ : (virtioImage disk n).Reader)), himage]
    exact .intro _ hprompt
  obtain ⟨out, k', hrun', hview⟩ :=
    arunos_refines_os (virtioImage disk n).serves himage hm hL ram ⟨⟩
  have hentry := VirtioDisk.alike.cEntry (L := L) hinit ram
  rw [hrun'] at hentry
  generalize hrun : (cEntry L).run (.initial ram dev) = r at hentry
  obtain ⟨@⟨_, k, _, h⟩⟩ := hentry
  refine ⟨out, k, rfl, fun es => ?_⟩
  rw [← show (virtioImage disk n).bytes = fun k => sectorBytes (disk k) from rfl, ← hview es]
  have hes := VirtioDisk.alike.run (L := L) (h.leave (fun _ _ => 0) out) es
  revert hes
  generalize es.foldlM (step L) (leave _ out k) = p, es.foldlM (step L) (leave _ out k') = q
  rintro (⟨h⟩ | _)
  · exact congrArg some h.view
  · rfl

/-! ### Any device -/

/-- The abstract system on a disk that may fail. -/
def unreliable (progs : List UInt8 → Option Program) : System OsMachine Event where
  init m := m = Os.boot progs ∨ m = .halted
  step m e m' := Os.step progs m e = some m' ∨ Os.stepFailed m e = some m'

/-- A run of the machine is a run of the abstract system. -/
theorem run_may (hv : Provides σ v True progs) (h : Mounted L v m) {es : List Event}
    (hrun : es.foldlM (step L) m = some m') :
    (unreliable progs).Path m.view es m'.view ∧ Mounted L v m' := by
  induction es generalizing m with
  | nil =>
      cases hrun
      exact ⟨.nil _, h⟩
  | cons e es ih =>
      rw [List.foldlM_cons] at hrun
      obtain ⟨m₁, hs, hrest⟩ := Option.bind_eq_some_iff.mp hrun
      obtain ⟨h₁, hstep⟩ := (step_may hv h e).1 m₁ hs
      obtain ⟨hpath, h'⟩ := ih h₁ hrest
      exact ⟨.cons (hstep.imp_right And.right) hpath, h'⟩

/-- A disk with fixed contents mounts as the volume in them, or it fails. -/
theorem Holds.boots (hd : Holds σ img) : Boots σ (contentsVolume img) True := by
  refine ⟨fun _ => .inr trivial, fun d => ?_⟩
  cases hm : fatInit .zero d with
  | mk ok r =>
      obtain ⟨v, d'⟩ := r
      cases ok with
      | false => exact .inr ⟨trivial, rfl⟩
      | true =>
          have hperfect := hd.fatInit_perfect hm
          rw [contentsVolume, hperfect]
          exact .inl ⟨d', rfl⟩

/-- The programs on a disk with the sectors `disk`. -/
def virtioPrograms (disk : Nat → Bytes) : List UInt8 → Option Program :=
  programNamed (fun k => sectorBytes (disk k)) (contentsVolume fun k => sectorBytes (disk k))

/-- **The kernel on its driver implements the abstract system.**  With a kernel image below 16 MiB,
from any memory at power-on, any state of the driver and any behaviour of its device: `c_entry`
ends, with the shell on the disk started or stopped; each run of the machine from there is a run of
the abstract system with the programs on the disk, in which only uses of the disk may fail; and the
machine can do whatever the abstract system can do. -/
theorem virtio_refines_os {disk : Nat → Bytes} (hL : L.kernelEnd < 0x81000000) (ram : Bytes)
    (dev : VirtioDisk disk) :
    ∃ out k, (cEntry L).run (.initial ram dev) = some (out, k) ∧
      (unreliable (virtioPrograms disk)).init (leave (fun _ _ => 0) out k).view ∧
      ∀ es m', es.foldlM (step L) (leave (fun _ _ => 0) out k) = some m' →
        (unreliable (virtioPrograms disk)).Path (leave (fun _ _ => 0) out k).view es m'.view ∧
        ∀ e, Os.step (virtioPrograms disk) m'.view e ≠ none → step L m' e ≠ none := by
  have hd := VirtioDisk.holds disk
  obtain ⟨out, k, hrun, hboot, hmounted⟩ :=
    (wp_cEntry_may ram dev hd.boots hd.provides).total (not_le.mpr hL)
  refine ⟨out, k, hrun, hboot.imp_right And.right, fun es m' hes => ?_⟩
  obtain ⟨hpath, hmounted'⟩ := run_may hd.provides hmounted hes
  exact ⟨hpath, fun e => mt (step_may hd.provides hmounted' e).2⟩

/-- The driver of `shellDisk`: the shell is started. -/
theorem virtio_refines_os_shell :
    ∃ out k, (cEntry smallLayout).run (.initial (fun _ => 0) shellVirtio) = some (out, k) ∧
      (leave (fun _ _ => 0) out k).view = Os.boot (virtioPrograms shellDisk.bytes) ∧
      (leave (fun _ _ => 0) out k).view ≠ .halted ∧
      ∀ es m', es.foldlM (step smallLayout) (leave (fun _ _ => 0) out k) = some m' →
        (unreliable (virtioPrograms shellDisk.bytes)).Path (leave (fun _ _ => 0) out k).view es
          m'.view ∧
        ∀ e, Os.step (virtioPrograms shellDisk.bytes) m'.view e ≠ none →
          step smallLayout m' e ≠ none := by
  obtain ⟨out, k, hrun, -, hpath⟩ := virtio_refines_os (L := smallLayout) (by decide)
    (fun _ => 0) shellVirtio
  have hready : (blockInit shellVirtio).1 = true := by decide +kernel
  have hprompt : (blockInit shellVirtio).2.Prompt 4103 :=
    ⟨by decide +kernel, shellVirtio_prompt.answers⟩
  have hmount : fatInit .zero (⟨⟩ : (virtioImage shellDisk.bytes 4103).Reader) =
      (true, contentsVolume fun k => sectorBytes (shellDisk.bytes k), ⟨⟩) := by decide +kernel
  obtain ⟨out', k', hrun', hview⟩ := prompt_refines_os (L := smallLayout) hready hprompt hmount
    (by decide) (fun _ => 0)
  cases hrun.symm.trans hrun'
  have hboot : (leave (fun _ _ => 0) out k).view = Os.boot (virtioPrograms shellDisk.bytes) :=
    Option.some.inj (hview [])
  have hshell : (virtioPrograms shellDisk.bytes shellName).isSome = true := by decide +kernel
  obtain ⟨prog, hprog⟩ := Option.isSome_iff_exists.mp hshell
  refine ⟨out, k, hrun, hboot, ?_, hpath⟩
  rw [hboot, Os.boot, hprog]
  simp

end Arunos
