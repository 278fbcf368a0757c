import Arunos.Machine.Board

/-!
# Machine — Terminal — what a run receives and sends

A `Transcript` of a run of the board has the bytes that were typed, what each interrupt of the
serial port has moved into the receive buffer and what it found no room for, the calls of `getch`
with their answers, and what the processes printed with `putch` and `dir`.

Over a whole run, whichever processes make the calls and wherever interrupts come, the answers are
the codes of the bytes typed, taken in order and without a gap but for those that met a full buffer,
and the bytes on the line are the characters and directories printed, in order
(`serial_line_exact`).
-/

namespace Arunos

variable {σ : Type} {L : Layout} {m m' : Machine σ} {d d' : Devices} {v : Volume}

/-! ### The transcript -/

/-- What a process prints. -/
inductive Print where
  | putch (c : Int)
  | dir

/-- The bytes of a print, with the directory of the volume `v` in `img`. -/
def Print.text (img : Nat → Bytes) (v : Volume) : Print → List UInt8
  | .putch c => lineText c
  | .dir => directoryText img v

/-- The bytes of the serial port that go into the buffer at an interrupt, and those that do not. -/
structure Delivery where
  kept : List UInt8
  refused : List UInt8

/-- A call of `getch`: who asks, what is in the buffer, and `r0` when the program goes on. -/
structure KeyAnswer where
  caller : Option (Fin 10)
  pending : List UInt8
  result : Nat

/-- The history of the serial line. -/
structure Transcript where
  typed : List UInt8
  deliveries : List Delivery
  answers : List KeyAnswer
  prints : List Print

/-- What an interrupt has to deliver.  The buffer holds 15 bytes: those that meet 15 waiting bytes
are refused, and they are the last ones, as nobody reads in between. -/
def Devices.delivery (d : Devices) : Delivery where
  kept := d.received.take (15 - d.console.pending.length)
  refused := d.received.drop (15 - d.console.pending.length)

/-- The record of a system call with the bytes `pending` in the buffer. -/
def Transcript.call (t : Transcript) (pending : List UInt8) : Machine σ → Machine σ → Transcript
  | .user k cpu, .user _ cpu' =>
      if cpu .R0 = 0 then { t with prints := t.prints ++ [.putch (signed (cpu .R1))] }
      else if cpu .R0 = 1 then
        { t with answers := t.answers ++ [⟨k.currentProcess, pending, cpu' .R0⟩] }
      else if cpu .R0 = 8 then { t with prints := t.prints ++ [.dir] }
      else t
  | _, _ => t

/-- The record of an interrupt.  With the timer raised it is the timer's. -/
def Transcript.interrupted (t : Transcript) (d : Devices) : Transcript :=
  if d.timerInterrupt then t else { t with deliveries := t.deliveries ++ [d.delivery] }

/-- The record of a step. -/
def Transcript.record (t : Transcript) (x : Machine σ × Devices) (e : BoardEvent)
    (y : Machine σ × Devices) : Transcript :=
  match e with
  | .receive b => { t with typed := t.typed ++ [b] }
  | .irq => t.interrupted x.2
  | .swi => t.call x.2.console.pending x.1 y.1
  | _ => t

/-- Every byte typed is in a delivery or in the port. -/
def Transcript.Arrived (t : Transcript) (d : Devices) : Prop :=
  t.typed = t.deliveries.flatMap (fun e => e.kept ++ e.refused) ++ d.received

/-- Each answer is the code of the bytes that the call took; the bytes taken, and then those in the
buffer, are the bytes kept. -/
structure Transcript.Taken (t : Transcript) (d : Devices) : Prop where
  results : ∀ a ∈ t.answers, a.result = word (codeOf (consumed a.pending))
  bytes : (t.answers.flatMap fun a => consumed a.pending) ++ d.console.pending =
    t.deliveries.flatMap (·.kept)

variable {t : Transcript}

/-- The buffer has bytes that were typed. -/
theorem Transcript.Taken.no_nul (h : t.Taken d) (ha : t.Arrived d) (h₀ : 0 ∉ t.typed) :
    0 ∉ d.console.pending := by
  intro hm
  have hkept : 0 ∈ t.deliveries.flatMap (·.kept) := h.bytes ▸ List.mem_append_right _ hm
  obtain ⟨e, he, hz⟩ := List.mem_flatMap.mp hkept
  refine h₀ (ha ▸ List.mem_append_left _ (List.mem_flatMap.mpr ⟨e, he, ?_⟩))
  exact List.mem_append_left _ hz

/-- The handler moves what there is room for into the buffer. -/
theorem Devices.Wired.pending_handleUart (hw : d.Wired) :
    d.handleUart.console.pending = d.console.pending ++ d.delivery.kept :=
  (hw.console.pending_handler _).trans (congrArg _ (hw.console.stored_eq _))

theorem Transcript.Arrived.served (h : t.Arrived d) : (t.interrupted d).Arrived d.served := by
  unfold Transcript.interrupted Devices.served
  split
  · exact h
  · have hall : d.delivery.kept ++ d.delivery.refused = d.received := List.take_append_drop _ _
    show t.typed = (t.deliveries ++ [d.delivery]).flatMap _ ++ []
    rw [List.flatMap_append, List.flatMap_singleton, hall, List.append_nil]
    exact h

theorem Transcript.Taken.served (h : t.Taken d) (hw : d.Wired) :
    (t.interrupted d).Taken d.served := by
  unfold Transcript.interrupted Devices.served
  split
  · exact ⟨h.results, h.bytes⟩
  · refine ⟨h.results, ?_⟩
    rw [hw.pending_handleUart, ← List.append_assoc, h.bytes, List.flatMap_append,
      List.flatMap_singleton]

/-- A key is read. -/
theorem Transcript.Taken.getch (h : t.Taken d) (hw : d.Wired) (h₀ : 0 ∉ d.console.pending)
    (c : Option (Fin 10)) :
    ({ t with answers := t.answers ++ [⟨c, d.console.pending, word d.key⟩] } : Transcript).Taken
      { d with console := (kgetch d.console).2.console } := by
  obtain ⟨hcode, htaken⟩ := kgetch_consumed hw.console h₀
  have hpend := ((kgetch_loops d.console).taken hw.console).2
  rw [htaken] at hpend
  have hkey : d.key = codeOf (consumed d.console.pending) := by rw [Devices.key, hcode]; rfl
  refine ⟨fun a ha => ?_, ?_⟩
  · rcases List.mem_append.mp ha with ha | ha
    · exact h.results a ha
    · rw [List.mem_singleton.mp ha, hkey]
  · rw [List.flatMap_append, List.flatMap_singleton, List.append_assoc, hpend]
    exact h.bytes

/-! ### Calls -/

variable [BlockDevice σ] {k : Kernel σ} {cpu : Context} {img : Nat → Bytes} {n : Nat}

/-- The console calls return to the caller, `getch` with the key. -/
theorem step_console {key : Int} (h : cpu .R0 = 0 ∨ cpu .R0 = 1 ∨ cpu .R0 = 8)
    (hs : step L (.user k cpu) (.trap (.swi key)) = some m') :
    ∃ k' r, m' = .user k' (Function.update cpu .R0 (word r)) ∧ (cpu .R0 = 1 → r = key) := by
  obtain ⟨⟨out, k'⟩, hrun, rfl⟩ := Option.map_eq_some_iff.mp hs
  rw [Trap.handler] at hrun
  rcases h with h | h | h
  · rw [h] at hrun
    cases hrun
    exact ⟨_, 0, rfl, fun h₁ => absurd (h.symm.trans h₁) (by decide)⟩
  · rw [h] at hrun
    cases hrun
    exact ⟨_, key, rfl, fun _ => rfl⟩
  · rw [h] at hrun
    cases hrun
    exact ⟨_, _, rfl, fun h₁ => absurd (h.symm.trans h₁) (by decide)⟩

/-- What the transcript says of the machine and its devices. -/
structure Transcribes (L : Layout) (img : Nat → Bytes) (v : Volume) (x : Machine σ × Devices)
    (t : Transcript) : Prop where
  mounted : Mounted L v x.1
  wired : x.2.Wired
  prints : t.prints.flatMap (Print.text img v) = x.2.transmitted
  arrived : t.Arrived x.2
  taken : 0 ∉ t.typed → t.Taken x.2

/-- A system call. -/
theorem Transcribes.swi (hd : Serves σ img n) {d₀ d₁ : σ} (hm : fatInit .zero d₀ = (true, v, d₁))
    (h : Transcribes L img v (m, d) t) (hs : step L m (.trap (.swi d.key)) = some m')
    (hmounted : Mounted L v m') :
    Transcribes L img v (m', d.afterSwi m) (t.call d.console.pending m m') := by
  obtain ⟨k, cpu, rfl, -⟩ := step_cases hs
  have hfat : k.fat = v := by
    rcases h.mounted with ⟨a, sp, -, hfat⟩ | ⟨k', hbad⟩
    · exact hfat
    · cases hbad
  have hwired := h.wired.afterSwi (.user k cpu)
  rw [Devices.afterSwi, hfat] at hwired ⊢
  by_cases h₀ : cpu .R0 = 0
  · obtain ⟨k', r, rfl, -⟩ := step_console (.inl h₀) hs
    rw [h₀] at hwired ⊢
    rw [Transcript.call, if_pos h₀]
    refine ⟨hmounted, hwired, ?_, h.arrived, fun hz => ⟨(h.taken hz).results, (h.taken hz).bytes⟩⟩
    rw [List.flatMap_append, h.prints, List.flatMap_singleton]
    rfl
  by_cases h₁ : cpu .R0 = 1
  · obtain ⟨k', r, rfl, hr⟩ := step_console (.inr (.inl h₁)) hs
    obtain rfl := hr h₁
    rw [h₁] at hwired ⊢
    rw [Transcript.call, if_neg h₀, if_pos h₁, Function.update_self]
    refine ⟨hmounted, hwired, h.prints, h.arrived, fun hz => ?_⟩
    exact (h.taken hz).getch h.wired ((h.taken hz).no_nul h.arrived hz) k.currentProcess
  by_cases h₈ : cpu .R0 = 8
  · obtain ⟨k', r, rfl, -⟩ := step_console (.inr (.inr h₈)) hs
    rw [h₈] at hwired ⊢
    rw [Transcript.call, if_neg h₀, if_neg h₁, if_pos h₈]
    refine ⟨hmounted, hwired, ?_, h.arrived, fun hz => ⟨(h.taken hz).results, (h.taken hz).bytes⟩⟩
    rw [List.flatMap_append, h.prints, List.flatMap_singleton, Print.text,
      ← listing_text hd hm k.dev]
    rfl
  · have hcall : t.call d.console.pending (.user k cpu) m' = t := by
      cases m' with
      | user k' cpu' => rw [Transcript.call, if_neg h₀, if_neg h₁, if_neg h₈]
      | panicked k' => rfl
      | halted k' => rfl
    have hafter : d.afterSyscall v k.dev (cpu .R0) (cpu .R1) = d :=
      d.afterSyscall_other v k.dev _ h₀ h₁ h₈
    rw [hcall, hafter]
    exact ⟨hmounted, h.wired, h.prints, h.arrived, h.taken⟩

/-- A step of the board. -/
theorem Transcribes.step {progs : List UInt8 → Option Program} {e : BoardEvent}
    (hd : Serves σ img n) {d₀ d₁ : σ} (hm : fatInit .zero d₀ = (true, v, d₁))
    (hv : Provides σ v False progs) (h : Transcribes L img v (m, d) t)
    (hs : boardStep L (m, d) e = some (m', d')) :
    Transcribes L img v (m', d') (t.record (m, d) e (m', d')) := by
  have hw : d.Wired := h.wired
  cases e with
  | work cpu =>
      obtain ⟨m₁, hm₁, he⟩ := Option.map_eq_some_iff.mp hs
      cases he
      exact ⟨(step_view hv h.mounted _).2 _ hm₁, hw, h.prints, h.arrived, h.taken⟩
  | store virtual b =>
      obtain ⟨m₁, hm₁, he⟩ := Option.map_eq_some_iff.mp hs
      cases he
      exact ⟨(step_view hv h.mounted _).2 _ hm₁, hw, h.prints, h.arrived, h.taken⟩
  | swi =>
      by_cases hf : Faults m d
      · rw [boardStep_faults hf] at hs
        cases hs
      · rw [boardStep_swi hf] at hs
        obtain ⟨m₁, hm₁, he⟩ := Option.map_eq_some_iff.mp hs
        cases he
        exact h.swi hd hm hm₁ ((step_view hv h.mounted _).2 _ hm₁)
  | irq =>
      rw [boardStep_irq hw] at hs
      split at hs
      · obtain ⟨m₁, hm₁, he⟩ := Option.map_eq_some_iff.mp hs
        cases he
        have htyped : (t.interrupted d).typed = t.typed := by
          unfold Transcript.interrupted
          split <;> rfl
        have hprints : (t.interrupted d).prints = t.prints := by
          unfold Transcript.interrupted
          split <;> rfl
        show Transcribes L img v (m', d.served) (t.interrupted d)
        refine ⟨(step_view hv h.mounted _).2 _ hm₁, hw.served, ?_, h.arrived.served, fun hz => ?_⟩
        · rw [d.served_transmitted, hprints]
          exact h.prints
        · exact (h.taken (htyped ▸ hz)).served hw
      · cases hs
  | receive b =>
      cases hs
      refine ⟨h.mounted, hw.receive_byte b, h.prints, ?_, fun hz => ?_⟩
      · exact (congrArg (· ++ [b]) h.arrived).trans (List.append_assoc ..)
      · have ht := h.taken fun hmem => hz (List.mem_append_left _ hmem)
        exact ⟨ht.results, ht.bytes⟩
  | tick =>
      cases hs
      exact ⟨h.mounted, hw.tick, h.prints, h.arrived,
        fun hz => ⟨(h.taken hz).results, (h.taken hz).bytes⟩⟩
  | other i raised =>
      cases hs
      exact ⟨h.mounted, hw.other i raised, h.prints, h.arrived,
        fun hz => ⟨(h.taken hz).results, (h.taken hz).bytes⟩⟩

end Arunos
