import Arunos.User.Programs

/-!
# User — Library — what `printf` and `gets` ask

Rules of pre- and postconditions for the library functions of the programs.  `printf` makes calls
of `putch` alone (`Printed`).  The history of a program has all that it has been typed: the answers
of `getch`, which edit a line until CR or LF (`typing`).  `gets` reads the next line (`Entered`) and
leaves it in the array.  The calls other than those of the console are `calls`.
-/

namespace Arunos

namespace User

open Interactive

variable {G : List (Request × Int) → Request → Prop} {h h' h'' : List (Request × Int)}

/-! ### Output -/

/-- Between `h` and `h'` there are calls of `putch` alone. -/
def Printed (h h' : List (Request × Int)) : Prop :=
  ∃ out : List (Int × Int), h' = h ++ out.map fun p => (.putch p.1, p.2)

theorem Printed.refl (h : List (Request × Int)) : Printed h h := ⟨[], by simp⟩

theorem Printed.putch (h : List (Request × Int)) (c a : Int) : Printed h (h ++ [(.putch c, a)]) :=
  ⟨[(c, a)], rfl⟩

theorem Printed.trans (h₁ : Printed h h') (h₂ : Printed h' h'') : Printed h h'' := by
  obtain ⟨out₁, rfl⟩ := h₁
  obtain ⟨out₂, rfl⟩ := h₂
  exact ⟨out₁ ++ out₂, by simp⟩

/-- What the library computes without a fault is passed on. -/
theorem obeys_orFault {α : Type} {o : Option α} {a : α} {Q : α → List (Request × Int) → Prop}
    (ho : o = some a) (hQ : Q a h) : Obeys G h (orFault o) Q := by
  subst ho
  exact obeys_pure hQ

theorem obeys_putch {c : Int} {Q : Unit → List (Request × Int) → Prop} (hG : G h (.putch c))
    (hQ : ∀ a, Q () (h ++ [(.putch c, a)])) : Obeys G h (User.putch c) Q :=
  obeys_bind (obeys_ask hG fun a => obeys_pure (hQ a))

/-- Printing prints, by induction on the codes. -/
theorem obeys_putchAll (codes : List Int) (hG : ∀ h', Printed h h' → ∀ c, G h' (.putch c)) :
    Obeys G h (putchAll codes) fun _ h' => Printed h h' := by
  induction codes generalizing h with
  | nil => exact obeys_pure (.refl h)
  | cons c codes ih =>
      refine obeys_bind (obeys_putch (hG h (.refl h) c) fun a => ?_)
      have hstep := Printed.putch h c a
      exact (ih fun h' hh => hG h' (hstep.trans hh)).mono fun _ h' hh => hstep.trans hh

/-- `printf` prints, if its format is a string and the arguments match its directives. -/
theorem obeys_printf {format fmt : List UInt8} {ap : List Argument}
    (hformat : HoldsString format fmt) (hmatch : Matches (directives fmt) ap)
    (hG : ∀ h', Printed h h' → ∀ c, G h' (.putch c)) :
    Obeys G h (printf format ap) fun _ h' => Printed h h' := by
  let collect (ch : Int) (codes : List Int) : Option (List Int) := some (codes ++ [ch])
  have hprints : vprintfBase collect [] format ap = _ := vprintfBase_eq hformat hmatch []
  rw [foldlM_collect] at hprints
  refine obeys_bind (obeys_orFault hprints ?_)
  exact obeys_bind ((obeys_putchAll _ hG).mono fun _ h' hh => obeys_pure hh)

/-- Only the directives that take an argument have to match one. -/
theorem matches_of_filter {ds : List Directive} {ap : List Argument}
    (hm : Matches (ds.filter (·.takes)) ap) : Matches ds ap := by
  induction ds generalizing ap with
  | nil => exact .nil ap
  | cons d ds ih =>
      cases hd : d.takes with
      | false =>
          rw [List.filter_cons_of_neg (by simp [hd])] at hm
          exact .fixed hd (ih hm)
      | true =>
          rw [List.filter_cons_of_pos hd] at hm
          cases hm with
          | fixed h t => cases hd.symm.trans h
          | takes h t => exact .takes h (ih t)

/-- A string literal is a format with the conversions `ds`. -/
def Format (s : String) (ds : List Directive) : Prop :=
  0 ∉ bytes s ∧ (directives (bytes s)).filter (·.takes) = ds

instance (s : String) (ds : List Directive) : Decidable (Format s ds) :=
  inferInstanceAs (Decidable (_ ∧ _))

/-- `obeys_printf` for a literal with the directives `ds`. -/
theorem obeys_format (s : String) {ds : List Directive} {ap : List Argument} (hs : Format s ds)
    (hm : Matches ds ap) (hG : ∀ h', Printed h h' → ∀ c, G h' (.putch c)) :
    Obeys G h (printf (literal s) ap) fun _ h' => Printed h h' :=
  obeys_printf ⟨hs.1, [], rfl⟩ (matches_of_filter (hs.2.symm ▸ hm)) hG

/-- `obeys_printf` for a literal without directives. -/
theorem obeys_print (s : String) (hs : Format s [])
    (hG : ∀ h', Printed h h' → ∀ c, G h' (.putch c)) :
    Obeys G h (printf (literal s) []) fun _ h' => Printed h h' :=
  obeys_format s hs (.nil _) hG

/-! ### What is typed -/

/-- The lines typed so far, and the line that is being typed. -/
structure Typing where
  lines : List (List Int)
  line : List Int

/-- A key edits the line, or ends it. -/
def Typing.key (t : Typing) (key : Int) : Typing :=
  if key = 0 then t
  else if key = 13 ∨ key = 10 then ⟨t.lines ++ [t.line], []⟩
  else ⟨t.lines, typed 127 t.line key⟩

/-- What is typed in a history. -/
def typing (h : List (Request × Int)) : Typing :=
  h.foldl (fun t p => if p.1 = .getch then t.key p.2 else t) ⟨[], []⟩

/-- The calls of a history that are not for the console. -/
def calls (h : List (Request × Int)) : List (Request × Int) := h.filter fun p => !p.1.console

/-- A key that is read is typed. -/
theorem typing_getch (h : List (Request × Int)) (key : Int) :
    typing (h ++ [(.getch, key)]) = (typing h).key key := by
  simp [typing, List.foldl_append]

/-- Nothing but `getch` types. -/
theorem typing_concat {r : Request} (hr : r ≠ .getch) (a : Int) :
    typing (h ++ [(r, a)]) = typing h := by
  simp [typing, List.foldl_append, hr]

/-- A call for the console is not counted among the calls. -/
theorem calls_console {r : Request} (hr : r.console = true) (a : Int) :
    calls (h ++ [(r, a)]) = calls h := by
  simp [calls, List.filter_append, hr]

/-- Every other call is, after those before it. -/
theorem calls_concat {r : Request} (hr : r.console = false) (a : Int) :
    calls (h ++ [(r, a)]) = calls h ++ [(r, a)] := by
  simp [calls, List.filter_append, hr]

/-- Printing types nothing. -/
theorem Printed.typing (hh : Printed h h') : typing h' = typing h := by
  obtain ⟨out, rfl⟩ := hh
  induction out using List.reverseRecOn with
  | nil => simp
  | append_singleton out p ih =>
      rw [List.map_append, ← List.append_assoc]
      exact (typing_concat (by simp) p.2).trans ih

/-- Printing makes no call but those for the console. -/
theorem Printed.calls (hh : Printed h h') : calls h' = calls h := by
  obtain ⟨out, rfl⟩ := hh
  induction out using List.reverseRecOn with
  | nil => simp
  | append_singleton out p ih =>
      rw [List.map_append, ← List.append_assoc]
      exact (calls_console rfl p.2).trans ih

theorem Printed.length_le (hh : Printed h h') : h.length ≤ h'.length := by
  obtain ⟨out, rfl⟩ := hh
  simp

/-! ### `gets` -/

/-- Since `h` the line `line` has been typed, and nothing else was done. -/
structure Typed (h : List (Request × Int)) (line : List Int) (h' : List (Request × Int)) :
    Prop where
  typing : typing h' = ⟨(User.typing h).lines, line⟩
  calls : calls h' = User.calls h

/-- Since `h` the line `line` has been typed and ended, and nothing else was done. -/
structure Entered (h : List (Request × Int)) (line : List Int) (h' : List (Request × Int)) :
    Prop where
  typing : typing h' = ⟨(User.typing h).lines ++ [line], []⟩
  calls : calls h' = User.calls h

theorem Typed.printed {line : List Int} (ht : Typed h line h') (hh : Printed h' h'') :
    Typed h line h'' := ⟨hh.typing.trans ht.typing, hh.calls.trans ht.calls⟩

theorem Entered.printed {line : List Int} (ht : Entered h line h') (hh : Printed h' h'') :
    Entered h line h'' := ⟨hh.typing.trans ht.typing, hh.calls.trans ht.calls⟩

/-- A round of the loop edits the line as the key does, or ends it. -/
theorem obeys_getsRound {buffer : List UInt8} {line : List Int} {g : Gets}
    (hbuffer : 128 ≤ buffer.length)
    (hG : ∀ h' line r, Typed h line h' → r.console = true → G h' r)
    (hg : Edits 128 buffer line g) (hh : Typed h line h') :
    Obeys G h' (getsRound 128 g)
      (Round (fun g h' => ∃ line, Edits 128 buffer line g ∧ Typed h line h')
        (fun g h' => ∃ line, Edits 128 buffer line g ∧ Entered h line h') h') := by
  refine obeys_bind (obeys_ask (hG _ _ _ hh rfl) fun key => ?_)
  have htyping := typing_getch h' key
  have hcalls := (calls_console (h := h') (r := .getch) rfl key).trans hh.calls
  rw [hh.typing] at htyping
  by_cases hzero : key = 0
  · rw [if_pos hzero]
    rw [Typing.key, if_pos hzero] at htyping
    exact obeys_pure ⟨⟨line, hg, htyping, hcalls⟩, by simp⟩
  rw [if_neg hzero]
  rw [Typing.key, if_neg hzero] at htyping
  by_cases hend : key = 13 ∨ key = 10
  · rw [if_pos hend]
    rw [if_pos hend] at htyping
    exact obeys_pure ⟨line, hg, htyping, hcalls⟩
  rw [if_neg hend]
  rw [if_neg hend] at htyping
  obtain ⟨g', htake, hg'⟩ := hg.take hbuffer key
  have hh' : Typed h (typed 127 line key) (h' ++ [(.getch, key)]) := ⟨htyping, hcalls⟩
  refine obeys_bind (obeys_orFault htake (obeys_bind ?_))
  refine (obeys_putchAll _ fun h'' hp c => hG h'' _ _ (hh'.printed hp) rfl).mono fun _ h'' hp => ?_
  refine obeys_pure ⟨⟨_, hg', hh'.printed hp⟩, ?_⟩
  have hle := hp.length_le
  simp only [List.length_append, List.length_singleton] at hle
  exact hle

/-- `gets` reads a line: it asks for keys until the line is ended, and leaves it in the array. -/
theorem obeys_gets {buffer : List UInt8} (hbuffer : buffer.length = 128)
    (hline : (typing h).line = [])
    (hG : ∀ h' line r, Typed h line h' → r.console = true → G h' r)
    (hend : ∀ h' line c, Entered h line h' → G h' (.putch c)) :
    Obeys G h (gets buffer 128) fun buffer' h' => ∃ line, Entered h line h' ∧
      HoldsString buffer' (line.map toChar) ∧ buffer'.length = 128 := by
  have hstart : Edits 128 buffer [] ⟨buffer, 0, []⟩ :=
    ⟨rfl, by decide, rfl, rfl, rfl, by simp, .blank, fun pre hpre => by
      rw [List.prefix_nil.mp hpre]
      exact le_rfl⟩
  have hh : Typed h [] h := ⟨by rw [← hline], rfl⟩
  have hloop : Obeys G h (Interactive.loop (getsRound 128) ⟨buffer, 0, []⟩) fun g h' =>
      ∃ line, Edits 128 buffer line g ∧ Entered h line h' := by
    refine obeys_loop (fun g h' => ∃ line, Edits 128 buffer line g ∧ Typed h line h') ?_
      ⟨[], hstart, hh⟩
    rintro g h' ⟨line, hg, hh⟩
    exact obeys_getsRound hbuffer.ge hG hg hh
  refine obeys_bind (hloop.mono ?_)
  rintro g h' ⟨line, hg, hh⟩
  refine obeys_bind (obeys_putch (hend _ _ _ hh) fun a => ?_)
  have hlt : g.bufferIndex < g.buffer.length := by
    rw [hg.index, hg.length, hbuffer]
    exact hg.room
  refine obeys_orFault (if_pos hlt) ⟨line, hh.printed (.putch h' 10 a), hg.holds hlt, ?_⟩
  rw [List.length_set, hg.length, hbuffer]

end User

end Arunos
