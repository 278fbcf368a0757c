import Arunos.Console.Receive

/-!
# Lib — Gets — the line input of `lib/stdio/gets.c`

`getch` returns the codes of a stream one after the other, and the call waits when the stream ends.
`putch` collects the codes it is given.  The buffer is an array, and a store outside it is a fault.

Two abstractions stand beside the loop: the line as a list of codes that `typed` edits, and the
display the output is replayed on.  The loop keeps all three in step (`Edits`), so the string it
leaves in the buffer is the line and the line is what the display shows.
-/

namespace Arunos

variable {size : Nat} {array : List UInt8} {code : Int} {chars : List Int}

/-! ### `gets_base` -/

/-- The variables of `gets_base`, and the codes `putch` was called with. -/
structure Gets where
  buffer : List UInt8
  bufferIndex : Nat
  output : List Int

variable {g g' : Gets}

/-- The body of the loop for a code other than 0, CR and LF. -/
def Gets.take (g : Gets) (size : Nat) (nextChar : Int) : Option Gets :=
  if nextChar = SpecialKey.KEY_BACKSPACE.value then
    if g.bufferIndex ≠ 0 then
      some { g with
        output := g.output ++
          [SpecialKey.KEY_ARROW_LEFT.value, 32, SpecialKey.KEY_ARROW_LEFT.value]
        bufferIndex := g.bufferIndex - 1 }
    else some g
  else if 32 ≤ nextChar ∧ nextChar < 128 ∧ g.bufferIndex < size - 1 then
    if g.bufferIndex < g.buffer.length then
      some {
        output := g.output ++ [nextChar]
        buffer := g.buffer.set g.bufferIndex (toChar nextChar)
        bufferIndex := g.bufferIndex + 1 }
    else none
  else some g

/-- The loop of `gets_base`, and the codes it leaves in the stream. -/
def getsLoop (size : Nat) : List Int → Gets → Option (Gets × List Int)
  | [], _ => none
  | nextChar :: stream, g =>
      if nextChar = 0 then getsLoop size stream g
      else if nextChar = 13 ∨ nextChar = 10 then some (g, stream)
      else do getsLoop size stream (← g.take size nextChar)

/-- What a call of `gets_base` leaves: the array it returns or NULL, the codes given to `putch` and
the rest of the stream. -/
structure GetsResult where
  returned : Option (List UInt8)
  output : List Int
  rest : List Int

/-- `gets_base(getch, putch, buffer, size)`. -/
def getsBase (stream : List Int) (buffer : Option (List UInt8)) (size : Nat) : Option GetsResult :=
  match buffer with
  | none => some ⟨none, [], stream⟩
  | some buffer =>
      if size = 0 then some ⟨none, [], stream⟩
      else do
        let (g, rest) ← getsLoop size stream ⟨buffer, 0, []⟩
        if g.bufferIndex < g.buffer.length then
          return ⟨some (g.buffer.set g.bufferIndex 0), g.output ++ [10], rest⟩
        else none

/-! ### The line and the display -/

/-- A code typed at the end of a line that has room for `limit` characters. -/
def typed (limit : Nat) (chars : List Int) (code : Int) : List Int :=
  if code = SpecialKey.KEY_BACKSPACE.value then chars.dropLast
  else if 32 ≤ code ∧ code < 128 ∧ chars.length < limit then chars ++ [code]
  else chars

/-- A display of one line.  Cells and cursor are counted from where the cursor starts. -/
structure Display where
  cells : Int → Int
  cursor : Int

namespace Display

/-- The display at the start. -/
def blank : Display := ⟨fun _ => 32, 0⟩

/-- The display after a code. -/
def put (d : Display) (code : Int) : Display :=
  if 32 ≤ code ∧ code < 128 then ⟨Function.update d.cells d.cursor code, d.cursor + 1⟩
  else if code = SpecialKey.KEY_ARROW_LEFT.value then { d with cursor := d.cursor - 1 }
  else d

/-- The display after a list of codes. -/
def replay (codes : List Int) : Display := codes.foldl put blank

/-- The display has `chars` left of the cursor, and is blank to the right. -/
structure Shows (d : Display) (chars : List Int) : Prop where
  cursor : d.cursor = chars.length
  cells : ∀ i : Nat, d.cells i = chars[i]?.getD 32

variable {d : Display}

theorem Shows.blank : Display.blank.Shows [] := ⟨rfl, fun _ => rfl⟩

theorem put_write (hcode : 32 ≤ code ∧ code < 128) :
    d.put code = ⟨Function.update d.cells d.cursor code, d.cursor + 1⟩ := if_pos hcode

theorem put_left :
    d.put SpecialKey.KEY_ARROW_LEFT.value = { d with cursor := d.cursor - 1 } := rfl

theorem getD_concat_ne {i : Nat} (h : i ≠ chars.length) :
    (chars ++ [code])[i]?.getD 32 = chars[i]?.getD 32 := by
  rcases Nat.lt_or_gt_of_ne h with hi | hi
  · rw [List.getElem?_append_left hi]
  · rw [List.getElem?_eq_none hi.le, List.getElem?_eq_none (by simpa using Nat.succ_le_of_lt hi)]

theorem Shows.write (h : d.Shows chars) (hcode : 32 ≤ code ∧ code < 128) :
    (d.put code).Shows (chars ++ [code]) := by
  obtain ⟨hcursor, hcells⟩ := h
  rw [put_write hcode]
  refine ⟨by simp [hcursor], fun i => ?_⟩
  by_cases hi : i = chars.length
  · simp [hcursor, hi]
  · simp [hcursor, hcells, hi, getD_concat_ne hi]

/-- A left arrow, a blank and a left arrow take the last character off the display. -/
theorem Shows.erase (h : d.Shows (chars ++ [code])) :
    (((d.put SpecialKey.KEY_ARROW_LEFT.value).put 32).put SpecialKey.KEY_ARROW_LEFT.value).Shows
      chars := by
  obtain ⟨hcursor, hcells⟩ := h
  have hcursor' : d.cursor = chars.length + 1 := by simp [hcursor]
  rw [put_left, put_write (by decide), put_left]
  refine ⟨by simp [hcursor'], fun i => ?_⟩
  by_cases hi : i = chars.length
  · simp [hcursor', hi]
  · simp [hcursor', hcells, hi, getD_concat_ne hi]

/-- The cursor has not been left of its start while the codes were replayed. -/
def StaysRight (codes : List Int) : Prop := ∀ pre, pre <+: codes → 0 ≤ (replay pre).cursor

theorem replay_concat (codes : List Int) (code : Int) :
    replay (codes ++ [code]) = (replay codes).put code := by
  simp [replay, List.foldl_append]

theorem StaysRight.concat {codes : List Int} (h : StaysRight codes)
    (hcode : 0 ≤ (replay (codes ++ [code])).cursor) : StaysRight (codes ++ [code]) := by
  intro pre hpre
  rcases List.prefix_concat_iff.mp hpre with rfl | hpre
  · exact hcode
  · exact h pre hpre

end Display

/-! ### The loop -/

/-- The buffer has the line in it and the bytes of `array` from `size` on, the output is what shows
the line. -/
structure Edits (size : Nat) (array : List UInt8) (chars : List Int) (g : Gets) : Prop where
  index : g.bufferIndex = chars.length
  room : chars.length < size
  text : g.buffer.take chars.length = chars.map toChar
  length : g.buffer.length = array.length
  frame : g.buffer.drop size = array.drop size
  printable : ∀ code ∈ chars, 32 ≤ code ∧ code < 128
  shows : (Display.replay g.output).Shows chars
  right : Display.StaysRight g.output

theorem Edits.write (h : Edits size array chars g) (harray : size ≤ array.length)
    (hcode : 32 ≤ code ∧ code < 128) (hroom : chars.length < size - 1) :
    Edits size array (chars ++ [code])
      ⟨g.buffer.set g.bufferIndex (toChar code), g.bufferIndex + 1, g.output ++ [code]⟩ := by
  have hlt : chars.length < g.buffer.length := by
    rw [h.length]
    exact Nat.lt_of_lt_of_le h.room harray
  have hshows : (Display.replay (g.output ++ [code])).Shows (chars ++ [code]) := by
    rw [Display.replay_concat]
    exact h.shows.write hcode
  refine ⟨by simp [h.index], by simp; omega, ?_, by simp [h.length], ?_, ?_, hshows,
    h.right.concat ?_⟩
  · rw [h.index, List.length_append, List.length_singleton,
      List.take_succ_eq_append_getElem (by simpa), List.take_set_of_le le_rfl, h.text]
    simp
  · rw [List.drop_set_of_lt (h.index ▸ h.room), h.frame]
  · rintro c hc
    rcases List.mem_append.mp hc with hc | hc
    · exact h.printable c hc
    · exact List.mem_singleton.mp hc ▸ hcode
  · rw [hshows.cursor]
    exact Int.natCast_nonneg _

theorem Edits.erase (h : Edits size array (chars ++ [code]) g) :
    Edits size array chars { g with
      output := g.output ++
        [SpecialKey.KEY_ARROW_LEFT.value, 32, SpecialKey.KEY_ARROW_LEFT.value]
      bufferIndex := g.bufferIndex - 1 } := by
  have hcursor : (Display.replay g.output).cursor = chars.length + 1 := by simp [h.shows.cursor]
  have hshows := h.shows.erase
  simp only [← Display.replay_concat] at hshows
  have hright : Display.StaysRight (g.output ++ [SpecialKey.KEY_ARROW_LEFT.value] ++ [32] ++
      [SpecialKey.KEY_ARROW_LEFT.value]) := by
    refine ((h.right.concat ?_).concat ?_).concat ?_
    · rw [Display.replay_concat, Display.put_left]
      show 0 ≤ (Display.replay g.output).cursor - 1
      omega
    · rw [Display.replay_concat, Display.replay_concat, Display.put_left,
        Display.put_write (by decide)]
      show 0 ≤ (Display.replay g.output).cursor - 1 + 1
      omega
    · rw [hshows.cursor]
      exact Int.natCast_nonneg _
  have htext : g.buffer.take chars.length = chars.map toChar := by
    have := congrArg (List.take chars.length) h.text
    simpa [List.take_take] using this
  refine ⟨by simp [h.index], ?_, htext, h.length, h.frame, ?_, ?_, ?_⟩
  · have := h.room
    simp only [List.length_append, List.length_singleton] at this
    omega
  · exact fun c hc => h.printable c (List.mem_append_left _ hc)
  · simpa [List.append_assoc] using hshows
  · simpa [List.append_assoc] using hright

/-- A code does to the buffer and the display what it does to the line. -/
theorem Edits.take (h : Edits size array chars g) (harray : size ≤ array.length) (code : Int) :
    ∃ g', g.take size code = some g' ∧ Edits size array (typed (size - 1) chars code) g' := by
  unfold Gets.take typed
  by_cases hback : code = SpecialKey.KEY_BACKSPACE.value
  · rw [if_pos hback, if_pos hback]
    cases hlast : chars.reverse with
    | nil =>
        obtain rfl := List.reverse_eq_nil_iff.mp hlast
        exact ⟨g, if_neg (by simp [h.index]), h⟩
    | cons last init =>
        obtain rfl : chars = init.reverse ++ [last] := by
          rw [← List.reverse_reverse chars, hlast, List.reverse_cons]
        refine ⟨_, if_pos (by simp [h.index]), ?_⟩
        rw [List.dropLast_concat]
        exact h.erase
  · rw [if_neg hback, if_neg hback, h.index]
    split
    case isTrue hwrite =>
      have hlt : chars.length < g.buffer.length := by
        rw [h.length]
        exact Nat.lt_of_lt_of_le h.room harray
      rw [if_pos hlt, ← h.index]
      exact ⟨_, rfl, h.write harray ⟨hwrite.1, hwrite.2.1⟩ hwrite.2.2⟩
    case isFalse => exact ⟨g, rfl, h⟩

/-- The loop takes the codes before the first CR or LF, and that one. -/
theorem Edits.loop {before : List Int} {last : Int} (h : Edits size array chars g)
    (harray : size ≤ array.length) (hbefore : ∀ code ∈ before, code ≠ 13 ∧ code ≠ 10)
    (hlast : last = 13 ∨ last = 10) (rest : List Int) :
    ∃ g', getsLoop size (before ++ last :: rest) g = some (g', rest) ∧
      Edits size array (before.foldl (typed (size - 1)) chars) g' := by
  induction before generalizing chars g with
  | nil =>
      refine ⟨g, ?_, h⟩
      rw [List.nil_append, getsLoop, if_neg (by omega), if_pos hlast]
  | cons code before ih =>
      have hrest := fun c hc => hbefore c (List.mem_cons_of_mem _ hc)
      obtain ⟨hcr, hlf⟩ := hbefore code List.mem_cons_self
      obtain ⟨g', htake, hg'⟩ := h.take harray code
      rw [List.cons_append, getsLoop]
      by_cases hzero : code = 0
      · rw [if_pos hzero]
        have htyped : typed (size - 1) chars code = chars := by
          rw [hzero]
          rfl
        rw [List.foldl_cons, htyped]
        exact ih h hrest
      · rw [if_neg hzero, if_neg (by simp [hcr, hlf]), htake]
        exact ih hg' hrest

/-- The NUL after the last character makes the buffer hold the line. -/
theorem Edits.holds (h : Edits size array chars g) (hlt : g.bufferIndex < g.buffer.length) :
    HoldsString (g.buffer.set g.bufferIndex 0) (chars.map toChar) := by
  refine ⟨fun hmem => ?_, g.buffer.drop (g.bufferIndex + 1), ?_⟩
  · obtain ⟨code, hcode, hnul⟩ := List.mem_map.mp hmem
    obtain ⟨hlow, hhigh⟩ := h.printable code hcode
    have := toNat_toChar (by omega) (by omega : code < 256)
    rw [hnul, UInt8.toNat_zero] at this
    omega
  · rw [List.set_eq_take_append_cons_drop, if_pos hlt, ← h.text, h.index]

/-- Left of the cursor the display has the characters of the line. -/
theorem Edits.cells (h : Edits size array chars g) {i : Nat} (hi : i < chars.length) :
    (chars.map toChar)[i]?.map (fun b => (b.toNat : Int)) =
      some ((Display.replay g.output).cells i) := by
  obtain ⟨hlow, hhigh⟩ := h.printable chars[i] (List.getElem_mem hi)
  rw [h.shows.cells, List.getElem?_map, List.getElem?_eq_getElem hi]
  simp only [Option.map_some, Option.getD_some]
  rw [toNat_toChar (by omega) (by omega)]

theorem Edits.blank (h : Edits size array chars g) {i : Int} (hi : chars.length ≤ i) :
    (Display.replay g.output).cells i = 32 := by
  obtain ⟨n, rfl⟩ := Int.eq_ofNat_of_zero_le (le_trans (Int.natCast_nonneg _) hi)
  rw [h.shows.cells, List.getElem?_eq_none (by omega)]
  rfl

/-- **A line is what the display shows.**  On a stream with a CR or LF in it, `gets_base` takes the
codes through the first of them and returns.  It stores into the first `size` bytes alone and
leaves a string of less than `size` characters there.  Replayed on a blank display, the output
before the newline puts that string left of the cursor and blanks right of it, and never moves the
cursor left of its start. -/
theorem getsBase_shows_line (hsize : 1 ≤ size) (array : List UInt8) (harray : size ≤ array.length)
    {stream : List Int} (hstream : 13 ∈ stream ∨ 10 ∈ stream) :
    ∃ before last rest, stream = before ++ last :: rest ∧ (last = 13 ∨ last = 10) ∧
      (∀ code ∈ before, code ≠ 13 ∧ code ≠ 10) ∧
      ∃ (buffer chars : List UInt8) (output : List Int),
        getsBase stream (some array) size = some ⟨some buffer, output ++ [10], rest⟩ ∧
        buffer.length = array.length ∧ buffer.drop size = array.drop size ∧
        HoldsString buffer chars ∧ chars.length ≤ size - 1 ∧
        (Display.replay output).cursor = chars.length ∧
        (∀ i : Nat, i < chars.length → chars[i]?.map (fun b => (b.toNat : Int)) =
          some ((Display.replay output).cells i)) ∧
        (∀ i : Int, chars.length ≤ i → (Display.replay output).cells i = 32) ∧
        ∀ pre, pre <+: output → 0 ≤ (Display.replay pre).cursor := by
  obtain ⟨last, hfind⟩ : ∃ last, stream.find? (fun c => c = 13 ∨ c = 10) = some last := by
    refine Option.isSome_iff_exists.mp (List.find?_isSome.mpr ?_)
    rcases hstream with h | h
    · exact ⟨13, h, by decide⟩
    · exact ⟨10, h, by decide⟩
  obtain ⟨hlast, before, rest, rfl, hbefore⟩ := List.find?_eq_some_iff_append.mp hfind
  have hlast : last = 13 ∨ last = 10 := by simpa using hlast
  have hbefore : ∀ code ∈ before, code ≠ 13 ∧ code ≠ 10 := by simpa using hbefore
  have hstart : Edits size array [] ⟨array, 0, []⟩ :=
    ⟨rfl, hsize, rfl, rfl, rfl, by simp, .blank, fun pre hpre => by
      rw [List.prefix_nil.mp hpre]
      exact le_rfl⟩
  obtain ⟨g, hloop, hg⟩ := hstart.loop harray hbefore hlast rest
  have hlt : g.bufferIndex < g.buffer.length := by
    rw [hg.index, hg.length]
    exact Nat.lt_of_lt_of_le hg.room harray
  refine ⟨before, last, rest, rfl, hlast, hbefore, g.buffer.set g.bufferIndex 0, _, g.output, ?_,
    ?_, ?_, hg.holds hlt, ?_⟩
  · rw [getsBase, if_neg (by omega), hloop]
    simp [hlt]
  · rw [List.length_set, hg.length]
  · rw [List.drop_set_of_lt (hg.index ▸ hg.room), hg.frame]
  · simp only [List.length_map]
    exact ⟨Nat.le_sub_one_of_lt hg.room, hg.shows.cursor, fun _ => hg.cells, fun _ => hg.blank,
      hg.right⟩

/-- The hypotheses are satisfiable: a backspace at the left edge, three letters in an array with
room for two, a backspace and a CR. -/
theorem getsBase_shows_line_edited :
    getsBase [0x1005, 0x61, 0, 0x62, 0x63, 0x1005, 13, 0x64] (some [7, 7, 7, 7]) 3 =
        some ⟨some [0x61, 0, 7, 7], [0x61, 0x62, 0x1004, 32, 0x1004] ++ [10], [0x64]⟩ ∧
      ∃ chars, HoldsString [0x61, 0, 7, 7] chars ∧ chars.length ≤ 2 ∧
        (Display.replay [0x61, 0x62, 0x1004, 32, 0x1004]).cursor = chars.length := by
  have heval : getsBase [0x1005, 0x61, 0, 0x62, 0x63, 0x1005, 13, 0x64] (some [7, 7, 7, 7]) 3 =
      some ⟨some [0x61, 0, 7, 7], [0x61, 0x62, 0x1004, 32, 0x1004] ++ [10], [0x64]⟩ := rfl
  obtain ⟨_, _, _, -, -, -, buffer, chars, output, hget, -, -, hholds, hlen, hcursor, -⟩ :=
    getsBase_shows_line (show 1 ≤ 3 by decide) [7, 7, 7, 7] (by decide)
      (.inl (show 13 ∈ [0x1005, 0x61, 0, 0x62, 0x63, 0x1005, 13, 0x64] by decide))
  obtain ⟨hbuffer, houtput, -⟩ :=
    GetsResult.mk.inj (Option.some.inj (heval.symm.trans hget))
  obtain rfl := Option.some.inj hbuffer
  obtain rfl := List.append_cancel_right houtput
  exact ⟨heval, chars, hholds, hlen, hcursor⟩

end Arunos
