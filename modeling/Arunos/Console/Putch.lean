import Arunos.Console.Consume

/-!
# Console — Putch — what `kputch` sends, and `kgetch` makes of it

`kputch` sends a special key as the first sequence of its code in the table, and any other code as
one byte, with a carriage return before a newline.  The backspace key has two sequences; the first
is the one that is sent.

The encodings of the keys are the ones `kgetch` decodes (`kputch_encoding`), so what is sent for a
list of keys and received at once is read back as the same list (`kputch_kgetch`).
-/

namespace Arunos

variable {c : Console} {code : Int} {out : List UInt8}

/-! ### `kputch` -/

/-- The loop of `get_special_key_sequence`. -/
def findSequence (code : Int) : List SpecialKeySequence → Option (List UInt8)
  | [] => none
  | key :: keys => if key.code.value = code then some key.sequence else findSequence code keys

/-- `get_special_key_sequence(code)`. -/
def getSpecialKeySequence (code : Int) : Option (List UInt8) :=
  findSequence code specialKeySequences

/-- `kputch(c)`: the bytes it transmits. -/
def kputch (c : Int) : Option (List UInt8) := do
  let sequence := (getSpecialKeySequence c).getD [toChar c, 0]
  let before ← if c = 10 then kputch 13 else pure []
  let sequenceLength ← strlen sequence
  return before ++ sequence.take sequenceLength
termination_by if c = 10 then 1 else 0
decreasing_by
  rename_i h
  rw [if_pos h, if_neg (by decide)]
  exact Nat.one_pos

/-- `kputch` for each of the codes, one after the other. -/
def kputchAll : List Int → Option (List UInt8)
  | [] => some []
  | code :: codes => do
      let first ← kputch code
      return first ++ (← kputchAll codes)

/-- The results of `n` calls of `kgetch` one after the other. -/
def kgetchs : Nat → Console → List (Option Int)
  | 0, _ => []
  | n + 1, c => (kgetch c).1 :: kgetchs n (kgetch c).2.console

/-! ### Encodings -/

/-- A special key, or a character that stands for itself on both ways. -/
def PlainCode (code : Int) : Prop :=
  (∃ key : SpecialKey, code = key.value) ∨
    (1 ≤ code ∧ code ≤ 126 ∧ code ≠ 0x1b ∧ code ≠ 0x08 ∧ code ≠ 10)

/-- A code other than the newline goes out as one sequence. -/
theorem kputch_sequence {sequence str : List UInt8} (hne : code ≠ 10)
    (hseq : (getSpecialKeySequence code).getD [toChar code, 0] = sequence)
    (h : HoldsString sequence str) : kputch code = some str := by
  have hlen := h.strlen
  obtain ⟨-, rest, hrest⟩ := h
  rw [kputch, hseq, hlen, if_neg hne]
  simp [hrest]

theorem getSpecialKeySequence_of_ne (h : ∀ key : SpecialKey, key.value ≠ code) :
    getSpecialKeySequence code = none := by
  simp [getSpecialKeySequence, specialKeySequences, findSequence, h]

/-- A character is not the code of a special key. -/
theorem getSpecialKeySequence_char (h : code < 256) : getSpecialKeySequence code = none := by
  refine getSpecialKeySequence_of_ne fun key => ?_
  cases key <;> simp only [SpecialKey.value] <;> omega

/-- A byte that is not one of the two for the backspace key stands for itself. -/
theorem codeOf_char {b : UInt8} (h : b.toNat ≠ 8 ∧ b.toNat ≠ 127) : codeOf [b] = b.toNat := by
  have hone : ∀ key ∈ specialKeySequences,
      key.text.length = 1 → key.text = [8] ∨ key.text = [127] := by decide
  refine (codeOf_singleton b).resolve_left ?_
  rintro ⟨key, hmem, htext⟩
  rcases hone key hmem (by rw [← htext]; rfl) with hk | hk <;>
  · obtain rfl := List.singleton_injective (htext.trans hk)
    simp at h

/-- **Every key is sent as an encoding of its own code.** -/
theorem kputch_encoding (h : PlainCode code) :
    ∃ e, kputch code = some e ∧ KeyEncoding e ∧ codeOf e = code := by
  rcases h with ⟨key, rfl⟩ | ⟨hlow, hhigh, hesc, hback, hnl⟩
  · -- the first entry of the table with the key's code
    have hall : ∀ key : SpecialKey, ∃ entry ∈ specialKeySequences,
        getSpecialKeySequence key.value = some entry.sequence ∧ codeOf entry.text = key.value ∧
          key.value ≠ 10 := by
      intro key
      cases key <;> decide
    obtain ⟨entry, hmem, hseq, hcode, hne⟩ := hall key
    exact ⟨entry.text, kputch_sequence hne (by rw [hseq]; rfl) (specialKeySequences_hold hmem),
      .special entry hmem, hcode⟩
  · have hchar := toNat_toChar (show 0 ≤ code by omega) (by omega)
    have he : KeyEncoding [toChar code] := by
      refine .single ?_ ?_ ?_
      · exact UInt8.le_iff_toNat_le.mpr (show 1 ≤ (toChar code).toNat by omega)
      · exact UInt8.le_iff_toNat_le.mpr (show (toChar code).toNat ≤ 126 by omega)
      · intro h
        rw [h] at hchar
        exact hesc hchar.symm
    have hnone := getSpecialKeySequence_char (show code < 256 by omega)
    refine ⟨[toChar code], kputch_sequence hnl (by rw [hnone]; rfl) ⟨he.no_nul, [], rfl⟩, he, ?_⟩
    rw [codeOf_char (by omega), hchar]

/-- What is sent for a list of keys is one encoding after the other. -/
theorem kputchAll_encodings {codes : List Int} (h : ∀ code ∈ codes, PlainCode code) :
    ∃ es : List (List UInt8), kputchAll codes = some es.flatten ∧ (∀ e ∈ es, KeyEncoding e) ∧
      es.map codeOf = codes := by
  induction codes with
  | nil => exact ⟨[], rfl, by simp, rfl⟩
  | cons code codes ih =>
      obtain ⟨e, hput, he, rfl⟩ := kputch_encoding (h code List.mem_cons_self)
      obtain ⟨es, hputs, hes, rfl⟩ := ih fun code hmem => h code (List.mem_cons_of_mem _ hmem)
      refine ⟨e :: es, by simp [kputchAll, hput, hputs], ?_, rfl⟩
      rintro e' (_ | ⟨_, hmem⟩)
      · exact he
      · exact hes e' hmem

/-! ### Reading them back -/

/-- A delivery is stored as far as there is room for it. -/
theorem Console.Valid.stored_eq (hc : c.Valid) (data : List UInt8) :
    c.stored data = data.take (15 - c.pending.length) := by
  induction data generalizing c with
  | nil => exact List.take_nil.symm
  | cons b data ih =>
      obtain ⟨hc', hpend⟩ := hc.receive b
      rw [Console.stored, ih hc', hpend]
      cases hfull : c.full with
      | true =>
          rw [if_pos rfl, if_pos rfl, hc.full.mp hfull]
          rfl
      | false =>
          have hle := hc.pending_le
          have hne : c.pending.length ≠ 15 := fun he => by simp [hc.full.mpr he] at hfull
          obtain ⟨n, hn⟩ : ∃ n, 15 - c.pending.length = n + 1 := ⟨14 - c.pending.length, by omega⟩
          rw [hn, List.take_succ_cons, if_neg (by simp), if_neg (by simp), List.length_append,
            List.length_singleton, show 15 - (c.pending.length + 1) = n by omega]

/-- `kgetch` takes the keys out of the ring one by one, and then reports that there is none. -/
theorem kgetchs_keys (hc : c.Valid) {es : List (List UInt8)} (hes : ∀ e ∈ es, KeyEncoding e)
    (hpend : c.pending = es.flatten) :
    kgetchs (es.length + 1) c = es.map (fun e => some (codeOf e)) ++ [some 0] := by
  induction es generalizing c with
  | nil =>
      have hcode := (kgetch_part hc (.inl hpend)).1
      rw [hpend] at hcode
      exact congrArg (· :: []) hcode
  | cons e es ih =>
      obtain ⟨hcode, hrest⟩ := kgetch_key hc (hes e List.mem_cons_self) hpend
      have hc' := ((kgetch_loops c).taken hc).1
      have := ih hc' (fun e hmem => hes e (List.mem_cons_of_mem _ hmem)) hrest
      rw [List.length_cons, kgetchs, hcode, this, List.map_cons, List.cons_append]

/-- **Keys sent by `kputch` are read back by `kgetch`.**  For every list of special keys and plain
characters, `kputch` sends it; if that is no more than the 15 bytes an empty ring has room for,
wherever its indices are, and arrives in one go, then the calls of `kgetch` return the list and
then 0. -/
theorem kputch_kgetch (codes : List Int) (h : ∀ code ∈ codes, PlainCode code) :
    ∃ out, kputchAll codes = some out ∧ (out.length ≤ 15 →
      ∀ c : Console, c.Valid → c.receiveBufferHead = c.receiveBufferTail →
        kgetchs (codes.length + 1) (uartInterruptHandler c out) = codes.map some ++ [some 0]) := by
  obtain ⟨es, hput, hes, rfl⟩ := kputchAll_encodings h
  refine ⟨es.flatten, hput, fun hle c hc hempty => ?_⟩
  have hnil : c.pending = [] := (pending_eq_nil hc).mpr hempty
  have hpend : (uartInterruptHandler c es.flatten).pending = es.flatten := by
    rw [hc.pending_handler, hnil, List.nil_append, hc.stored_eq, hnil]
    exact List.take_of_length_le hle
  rw [List.length_map, kgetchs_keys (hc.handler _) hes hpend, List.map_map]
  rfl

/-- The hypotheses are satisfiable: an arrow, a letter and the backspace key, from the last position
of the ring. -/
theorem kputch_kgetch_arrow :
    (∀ code ∈ [0x1001, 0x61, 0x1005], PlainCode code) ∧
      kputchAll [0x1001, 0x61, 0x1005] = some [0x1b, 0x5b, 0x41, 0x61, 0x7f] ∧
      kgetchs 4 (uartInterruptHandler ⟨fun _ => 0, 15, 15⟩ [0x1b, 0x5b, 0x41, 0x61, 0x7f]) =
        [some 0x1001, some 0x61, some 0x1005, some 0] := by
  have hcodes : ∀ code ∈ [0x1001, 0x61, 0x1005], PlainCode code := by
    simp only [List.forall_mem_cons]
    exact ⟨.inl ⟨.KEY_ARROW_UP, rfl⟩, .inr (by decide), .inl ⟨.KEY_BACKSPACE, rfl⟩, by simp⟩
  have hput : kputchAll [0x1001, 0x61, 0x1005] = some [0x1b, 0x5b, 0x41, 0x61, 0x7f] := by
    have hup : kputch 0x1001 = some [0x1b, 0x5b, 0x41] :=
      kputch_sequence (by decide) rfl ⟨by decide, [0, 0], rfl⟩
    have hletter : kputch 0x61 = some [0x61] :=
      kputch_sequence (by decide) rfl ⟨by decide, [], rfl⟩
    have hback : kputch 0x1005 = some [0x7f] :=
      kputch_sequence (by decide) rfl ⟨by decide, [0, 0, 0, 0], rfl⟩
    simp [kputchAll, hup, hletter, hback]
  obtain ⟨out, hout, hget⟩ := kputch_kgetch [0x1001, 0x61, 0x1005] hcodes
  obtain rfl : [0x1b, 0x5b, 0x41, 0x61, 0x7f] = out := Option.some.inj (hput.symm.trans hout)
  exact ⟨hcodes, hput, hget (by decide) ⟨fun _ => 0, 15, 15⟩ ⟨by decide, by decide⟩ rfl⟩

end Arunos
