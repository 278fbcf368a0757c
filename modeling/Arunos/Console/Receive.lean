import Arunos.Lib.String
import Arunos.Support.Ring
import Arunos.Support.System

/-!
# Console — Receive — the receive buffer and the key decoder of `kernel/console.c`

The UART's interrupt handler stores the bytes it is given in `receive_buffer`, a ring of 16 slots;
`kgetch` takes them out.  Its loop reads bytes into the array `sequence` as long as the string there
is the beginning of a special key's sequence, and there is no other bound on the loop.  `Getch` is
`kgetch` at the head of its loop.  A write outside `sequence` or a string operation that runs past
its end is a fault: the call ends there.

`serial` is the system of handler runs and calls of `kgetch` in any order.
-/

namespace Arunos

/-! ### The ring -/

/-- The static variables of `console.c`. -/
structure Console where
  receiveBuffer : Bytes
  receiveBufferHead : Nat
  receiveBufferTail : Nat

/-- `circular_inc(operand, circle_size)`. -/
def circularInc (operand circleSize : Nat) : Nat :=
  if operand + 1 = circleSize then 0 else operand + 1

theorem circularInc_eq (i n : Nat) : circularInc i n = Ring.next n i := rfl

/-- `console_init`. -/
def consoleInit (c : Console) : Console :=
  { c with receiveBufferHead := 0, receiveBufferTail := 0 }

/-- The test of `uart_interrupt_handler`. -/
def Console.full (c : Console) : Bool :=
  circularInc c.receiveBufferHead 16 == c.receiveBufferTail

/-- A round of `uart_interrupt_handler`, where `uart_receive` returns `data`. -/
def Console.receive (c : Console) (data : UInt8) : Console :=
  if !c.full then
    { c with
      receiveBuffer := Function.update c.receiveBuffer c.receiveBufferHead data
      receiveBufferHead := circularInc c.receiveBufferHead 16 }
  else c

/-- `uart_interrupt_handler`, when the UART has the bytes `data`. -/
def uartInterruptHandler (c : Console) (data : List UInt8) : Console := data.foldl Console.receive c

/-! ### The keys -/

/-- `enum SpecialKey`. -/
inductive SpecialKey where
  | KEY_ARROW_UP | KEY_ARROW_DOWN | KEY_ARROW_RIGHT | KEY_ARROW_LEFT | KEY_BACKSPACE
deriving DecidableEq

/-- The number of a key. -/
def SpecialKey.value : SpecialKey → Int
  | .KEY_ARROW_UP => 0x1001
  | .KEY_ARROW_DOWN => 0x1002
  | .KEY_ARROW_RIGHT => 0x1003
  | .KEY_ARROW_LEFT => 0x1004
  | .KEY_BACKSPACE => 0x1005

/-- `struct SpecialKeySequence`; the array has `MAX_SPECIAL_KEY_SEQ_LEN` bytes. -/
structure SpecialKeySequence where
  code : SpecialKey
  sequence : List UInt8

/-- `SPECIAL_KEY_SEQUENCES`. -/
def specialKeySequences : List SpecialKeySequence :=
  [⟨.KEY_ARROW_UP, [0x1b, 0x5b, 0x41, 0, 0, 0]⟩,
   ⟨.KEY_ARROW_DOWN, [0x1b, 0x5b, 0x42, 0, 0, 0]⟩,
   ⟨.KEY_ARROW_RIGHT, [0x1b, 0x5b, 0x43, 0, 0, 0]⟩,
   ⟨.KEY_ARROW_LEFT, [0x1b, 0x5b, 0x44, 0, 0, 0]⟩,
   ⟨.KEY_BACKSPACE, [0x7f, 0, 0, 0, 0, 0]⟩,
   ⟨.KEY_BACKSPACE, [0x08, 0, 0, 0, 0, 0]⟩]

/-- The loop of `is_special_key_sequence_prefix`. -/
def startsSome (sequence : List UInt8) (sequenceLength : Nat) :
    List SpecialKeySequence → Option Bool
  | [] => some false
  | key :: keys => do
      if (← strncmp sequence key.sequence sequenceLength) = 0 then return true
      else startsSome sequence sequenceLength keys

/-- `is_special_key_sequence_prefix(sequence)`. -/
def isSpecialKeySequencePrefix (sequence : List UInt8) : Option Bool := do
  startsSome sequence (← strlen sequence) specialKeySequences

/-- The loop of `get_special_key_code`. -/
def findCode (sequence : List UInt8) : List SpecialKeySequence → Option Int
  | [] => some 0
  | key :: keys => do
      if (← strcmp sequence key.sequence) = 0 then return key.code.value
      else findCode sequence keys

/-- `get_special_key_code(sequence)`. -/
def getSpecialKeyCode (sequence : List UInt8) : Option Int :=
  findCode sequence specialKeySequences

/-! ### `kgetch` -/

/-- `kgetch` at the head of its loop.  `taken` are the bytes the call has read from the ring. -/
structure Getch where
  console : Console
  sequence : List UInt8
  sequenceLength : Nat
  taken : List UInt8

/-- The call of `kgetch`. -/
def Getch.start (c : Console) : Getch := ⟨c, List.replicate 6 0, 0, []⟩

/-- The condition of the loop. -/
def Getch.again (g : Getch) : Option Bool := do
  if g.console.receiveBufferHead = g.console.receiveBufferTail then return false
  else if !(← isSpecialKeySequencePrefix g.sequence) then return false
  else return (← getSpecialKeyCode g.sequence) == 0

/-- The body of the loop; `sequence` has `MAX_SPECIAL_KEY_SEQ_LEN` bytes. -/
def Getch.body (g : Getch) : Option Getch :=
  let data := g.console.receiveBuffer g.console.receiveBufferTail
  if g.sequenceLength < 6 then
    some
      { console := { g.console with
          receiveBufferTail := circularInc g.console.receiveBufferTail 16 }
        sequence := g.sequence.set g.sequenceLength data
        sequenceLength := g.sequenceLength + 1
        taken := g.taken ++ [data] }
  else none

/-- The loop, for at most `n` rounds: where it ends, and whether by its condition. -/
def kgetchLoop : Nat → Getch → Bool × Getch
  | 0, g => (false, g)
  | n + 1, g =>
      match g.again with
      | some true =>
          match g.body with
          | some g' => kgetchLoop n g'
          | none => (false, g)
      | some false => (true, g)
      | none => (false, g)

/-- What follows the loop. -/
def Getch.keycode (g : Getch) : Option Int := do
  let keycode ← getSpecialKeyCode g.sequence
  if keycode = 0 ∧ g.sequenceLength ≠ 0 then
    return (← g.sequence[g.sequenceLength - 1]?).toNat
  else return keycode

/-- `kgetch`: its result, none after a fault, and where its loop ended.  A round takes one of the
at most 15 bytes in the ring. -/
def kgetch (c : Console) : Option Int × Getch :=
  let r := kgetchLoop 16 (Getch.start c)
  (if r.1 then r.2.keycode else none, r.2)

/-- The states in which a call of `kgetch` on `c` comes to the head of its loop. -/
inductive Loops (c : Console) : Getch → Prop where
  | start : Loops c (Getch.start c)
  | round {g g' : Getch} (h : Loops c g) (again : g.again = some true) (body : g.body = some g') :
      Loops c g'

/-! ### The serial line -/

/-- A run of the interrupt handler, or a call of `kgetch`. -/
inductive SerialEvent where
  | uart (data : List UInt8)
  | getch

/-- The console, with handler runs and calls in any order. -/
def serial : System Console SerialEvent where
  init c := ∃ c₀, c = consoleInit c₀
  step c e c' :=
    match e with
    | .uart data => c' = uartInterruptHandler c data
    | .getch => c' = (kgetch c).2.console

/-- The bytes that wait in the ring, oldest first. -/
def Console.pending (c : Console) : List UInt8 :=
  Ring.contents 16 c.receiveBuffer c.receiveBufferTail c.receiveBufferHead

/-- The indices are inside the ring. -/
structure Console.Valid (c : Console) : Prop where
  head : c.receiveBufferHead < 16
  tail : c.receiveBufferTail < 16

variable {c c' : Console} {g g' : Getch}

theorem Console.Valid.full (h : c.Valid) : c.full = true ↔ c.pending.length = 15 := by
  have := Ring.full_iff h.tail h.head
  rw [Console.pending, Ring.length_contents, ← this, Console.full, beq_iff_eq, circularInc_eq]

/-- The ring holds 15 bytes. -/
theorem Console.Valid.pending_le (h : c.Valid) : c.pending.length ≤ 15 := by
  rw [Console.pending, Ring.length_contents]
  exact Nat.le_of_lt_succ (Ring.count_lt h.tail h.head)

theorem Console.Valid.receive (h : c.Valid) (data : UInt8) :
    (c.receive data).Valid ∧
      (c.receive data).pending = if c.full then c.pending else c.pending ++ [data] := by
  unfold Console.receive
  cases hfull : c.full with
  | true => exact ⟨h, rfl⟩
  | false =>
      have hne : Ring.next 16 c.receiveBufferHead ≠ c.receiveBufferTail := by
        simpa [Console.full, circularInc_eq] using hfull
      exact ⟨⟨Ring.next_lt h.head, h.tail⟩, Ring.contents_push _ data h.tail h.head hne⟩

theorem Console.Valid.handler (h : c.Valid) (data : List UInt8) :
    (uartInterruptHandler c data).Valid := by
  induction data generalizing c with
  | nil => exact h
  | cons b data ih => exact ih (h.receive b).1

/-- A round of the loop moves one byte out of the ring. -/
theorem Getch.body_spec (hg : g.console.Valid)
    (hne : g.console.receiveBufferHead ≠ g.console.receiveBufferTail) (h : g.body = some g') :
    ∃ b, g'.console.Valid ∧ g.console.pending = b :: g'.console.pending ∧
      g.sequenceLength < 6 ∧ g'.sequence = g.sequence.set g.sequenceLength b ∧
      g'.sequenceLength = g.sequenceLength + 1 ∧ g'.taken = g.taken ++ [b] := by
  unfold Getch.body at h
  split at h
  · rename_i hlt
    cases h
    exact ⟨_, ⟨hg.head, Ring.next_lt hg.tail⟩, Ring.contents_pop _ hg.tail hg.head hne.symm, hlt,
      rfl, rfl, rfl⟩
  · cases h

theorem Getch.nonempty_of_again (h : g.again = some true) :
    g.console.receiveBufferHead ≠ g.console.receiveBufferTail := by
  intro he
  simp [Getch.again, he] at h

/-- What a call has read and what is left are what there was. -/
theorem Loops.taken (hc : c.Valid) (h : Loops c g) :
    g.console.Valid ∧ g.taken ++ g.console.pending = c.pending := by
  induction h with
  | start => exact ⟨hc, rfl⟩
  | round _ again body ih =>
      obtain ⟨hg, heq⟩ := ih
      obtain ⟨b, hg', hpend, -, -, -, htaken⟩ :=
        Getch.body_spec hg (Getch.nonempty_of_again again) body
      refine ⟨hg', ?_⟩
      rw [htaken, List.append_assoc, List.singleton_append, ← hpend, heq]

theorem Loops.loop (h : Loops c g) (n : Nat) : Loops c (kgetchLoop n g).2 := by
  induction n generalizing g with
  | zero => exact h
  | succ n ih =>
      unfold kgetchLoop
      split
      · rename_i hagain
        split
        · rename_i g' hbody
          exact ih (h.round hagain hbody)
        · exact h
      · exact h
      · exact h

theorem kgetch_loops (c : Console) : Loops c (kgetch c).2 := Loops.start.loop 16

theorem consoleInit_valid (c : Console) : (consoleInit c).Valid :=
  ⟨Nat.zero_lt_succ _, Nat.zero_lt_succ _⟩

theorem Reachable.valid (h : serial.Reachable c) : c.Valid := by
  refine h.invariant ?_ ?_
  · rintro _ ⟨c₀, rfl⟩
    exact consoleInit_valid c₀
  · intro c e c' hc hs
    cases e with
    | uart data =>
        obtain rfl := hs
        exact hc.handler data
    | getch =>
        obtain rfl := hs
        exact ((kgetch_loops c).taken hc).1

/-! ### The history of the ring -/

/-- The bytes of `data` that the handler stores. -/
def Console.stored (c : Console) : List UInt8 → List UInt8
  | [] => []
  | b :: data =>
      if c.full then (c.receive b).stored data else b :: (c.receive b).stored data

/-- What has gone into the ring and what `kgetch` has taken out. -/
structure RingHistory where
  kept : List UInt8
  taken : List UInt8

/-- The history after an event. -/
def RingHistory.record (r : RingHistory) (c : Console) : SerialEvent → RingHistory
  | .uart data => { r with kept := r.kept ++ c.stored data }
  | .getch => { r with taken := r.taken ++ (kgetch c).2.taken }

/-- The serial line with the history of its ring. -/
def serialRing : System (Console × RingHistory) SerialEvent :=
  serial.observe (fun _ => ⟨[], []⟩) fun r c e _ => r.record c e

theorem Console.Valid.pending_handler (h : c.Valid) (data : List UInt8) :
    (uartInterruptHandler c data).pending = c.pending ++ c.stored data := by
  induction data generalizing c with
  | nil => exact (List.append_nil _).symm
  | cons b data ih =>
      obtain ⟨hv, hpend⟩ := h.receive b
      have := ih hv
      rw [hpend] at this
      refine this.trans ?_
      cases hfull : c.full <;> simp [Console.stored, hfull]

/-- The bytes stored of a delivery in two parts. -/
theorem Console.stored_append (c : Console) (data data' : List UInt8) :
    c.stored (data ++ data') = c.stored data ++ (uartInterruptHandler c data).stored data' := by
  induction data generalizing c with
  | nil => rfl
  | cons b data ih =>
      have := ih (c.receive b)
      cases hfull : c.full <;> simp [Console.stored, hfull, this, uartInterruptHandler]

theorem Console.Valid.stored_singleton (h : c.Valid) (b : UInt8) :
    c.stored [b] = if c.pending.length = 15 then [] else [b] := by
  cases hfull : c.full with
  | true => simp [Console.stored, hfull, h.full.mp hfull]
  | false =>
      have hne : c.pending.length ≠ 15 := fun he => by simp [h.full.mpr he] at hfull
      simp [Console.stored, hfull, hne]

/-- What has been taken out followed by what waits is what was kept. -/
theorem taken_append_pending {r : RingHistory} (h : serialRing.Reachable (c, r)) :
    c.Valid ∧ r.taken ++ c.pending = r.kept := by
  refine System.Reachable.observer_invariant
    (I := fun c r => c.Valid ∧ r.taken ++ c.pending = r.kept) h ?_ ?_
  · rintro _ ⟨c₀, rfl⟩
    exact ⟨consoleInit_valid c₀, Ring.contents_self _⟩
  · intro c r e c' ⟨hc, hr⟩ hs
    cases e with
    | uart data =>
        obtain rfl : c' = _ := hs
        refine ⟨hc.handler data, ?_⟩
        change r.taken ++ (uartInterruptHandler c data).pending = r.kept ++ c.stored data
        rw [hc.pending_handler, ← List.append_assoc, hr]
    | getch =>
        obtain rfl : c' = _ := hs
        obtain ⟨hv, htaken⟩ := (kgetch_loops c).taken hc
        refine ⟨hv, ?_⟩
        change (r.taken ++ (kgetch c).2.taken) ++ (kgetch c).2.console.pending = r.kept
        rw [List.append_assoc, htaken, hr]

/-- **The ring is a lossless queue.**  In every state of every run the indices are inside the ring,
and what has been taken out followed by what waits is what was not discarded.  In a delivery of
`data ++ b :: data'` the byte `b` is discarded exactly when 15 bytes wait at that moment. -/
theorem receive_ring_fifo {r : RingHistory} (h : serialRing.Reachable (c, r)) :
    c.receiveBufferHead < 16 ∧ c.receiveBufferTail < 16 ∧ r.taken ++ c.pending = r.kept ∧
      ∀ data b data', c.stored (data ++ b :: data') =
        c.stored data ++
          (if (uartInterruptHandler c data).pending.length = 15 then [] else [b]) ++
            (uartInterruptHandler c (data ++ [b])).stored data' := by
  obtain ⟨hc, hr⟩ := taken_append_pending h
  refine ⟨hc.head, hc.tail, hr, ?_⟩
  intro data b data'
  have hsplit : data ++ b :: data' = (data ++ [b]) ++ data' := by simp
  rw [hsplit, Console.stored_append, Console.stored_append, (hc.handler data).stored_singleton]

/-- Bytes may arrive before the first call of `kgetch`. -/
theorem serialRing_uart (c : Console) (data : List UInt8) :
    serialRing.Reachable
      (uartInterruptHandler (consoleInit c) data, ⟨(consoleInit c).stored data, []⟩) := by
  have hinit : serialRing.Reachable (consoleInit c, ⟨[], []⟩) := .init ⟨⟨c, rfl⟩, rfl⟩
  exact hinit.step (e := .uart data) ⟨rfl, rfl⟩

/-- Sixteen bytes arrive before the first call: the last one is discarded. -/
theorem receive_ring_fifo_sixteen :
    (uartInterruptHandler (consoleInit ⟨fun _ => 0, 0, 0⟩) (List.replicate 16 0x61)).pending =
      List.replicate 15 0x61 := by
  have hstored : (consoleInit ⟨fun _ => 0, 0, 0⟩).stored (List.replicate 16 0x61) =
      List.replicate 15 0x61 := by decide
  have hr := serialRing_uart ⟨fun _ => 0, 0, 0⟩ (List.replicate 16 0x61)
  have hfifo := (receive_ring_fifo hr).2.2.1
  simp only [List.nil_append] at hfifo
  rw [hfifo, hstored]

end Arunos
