import Arunos.Lib.Strtok
import Mathlib.Data.List.Chain

/-!
# Monitor — Debug — the debug information of `kernel/debug.c`

`get_debug_info` reads the symbol table (`.stab`) entry by entry into one record and stops at the
first source line at or after the program counter.  The table is the list of its entries, and the
strings are offsets into the array `stabstr` (`.stabstr`).  The arrays of the record have their
sizes in the type, and a store outside them is a fault.  What the record holds before it is set is
arbitrary.  The static variable of `strtok` is left out here: no call uses what the calls of this
file leave in it.

A table that lists functions one after the other is the flattening of its functions
(`FunctionStabs`).  The scan passes every function before the one at the program counter (`Passed`).
-/

namespace Arunos

/-- `NAME_MAX_LENGTH`. -/
def nameMaxLength : Nat := 128

/-- `ARG_MAX_COUNT`. -/
def argMaxCount : Nat := 4

/-- An array `char [n]`. -/
structure Buffer (n : Nat) where
  bytes : List UInt8
  length_eq : bytes.length = n

/-- `struct DebugInfo`. -/
structure DebugInfo where
  file : Buffer nameMaxLength
  function : Buffer nameMaxLength
  functionAddress : UInt32
  argCount : Nat
  argNames : Fin argMaxCount → Buffer nameMaxLength
  argPositions : Fin argMaxCount → UInt32
  sourceLineNumber : Int
  sourceLineAddress : UInt32

/-- The fields of `struct SymbolTableEntry` that are read. -/
structure SymbolTableEntry where
  nStrx : UInt32
  nType : UInt8
  nDesc : UInt16
  nValue : UInt32

def SYMBOL_FUNCTION : UInt8 := 0x24
def SYMBOL_SOURCE_LINE : UInt8 := 0x44
def SYMBOL_SOURCE_FILE : UInt8 := 0x64
def SYMBOL_PARAMETER : UInt8 := 0xa0

theorem length_strcpy {t s t' : List UInt8} (h : strcpy t s = some t') : t'.length = t.length := by
  induction t generalizing s t' with
  | nil => cases h
  | cons d t ih =>
      cases s with
      | nil => cases h
      | cons c s =>
          rw [strcpy] at h
          split at h
          · obtain ⟨t₁, h₁, rfl⟩ := Option.map_eq_some_iff.mp h
            rw [List.length_cons, List.length_cons, ih h₁]
          · cases h
            rfl

/-- `strcpy` into an array. -/
def Buffer.strcpy {n : Nat} (b : Buffer n) (source : List UInt8) : Option (Buffer n) :=
  match h : Arunos.strcpy b.bytes source with
  | some t => some ⟨t, (length_strcpy h).trans b.length_eq⟩
  | none => none

/-- The store of a NUL at the start of an array. -/
def Buffer.clear {n : Nat} (b : Buffer n) : Buffer n :=
  ⟨b.bytes.set 0 0, (List.length_set).trans b.length_eq⟩

/-- `init_debug_info`. -/
def initDebugInfo (info : DebugInfo) : DebugInfo :=
  { info with
    file := info.file.clear, function := info.function.clear, functionAddress := 0, argCount := 0,
    sourceLineNumber := 0, sourceLineAddress := 0 }

/-- `get_symbol_name`: the array it leaves. -/
def getSymbolName (stabstr : List UInt8) (entry : SymbolTableEntry) (symbolName : List UInt8) :
    Option (List UInt8) := do
  let (_, symbolName) ← strlcpy symbolName (stabstr.drop entry.nStrx.toNat) nameMaxLength
  let (_, s) ← strtok ⟨symbolName, none⟩ (some 0) [58]
  return s.text

/-- `update_debug_info`. -/
def updateDebugInfo (stabstr : List UInt8) (info : DebugInfo) (entry : SymbolTableEntry) :
    Option DebugInfo := do
  let symbolName ← getSymbolName stabstr entry (List.replicate nameMaxLength 0)
  if entry.nType = SYMBOL_SOURCE_FILE then
    return { info with file := ← info.file.strcpy symbolName }
  else if entry.nType = SYMBOL_FUNCTION then
    return { info with
      function := ← info.function.strcpy symbolName
      functionAddress := entry.nValue
      argCount := 0 }
  else if entry.nType = SYMBOL_PARAMETER then
    if h : info.argCount < argMaxCount then
      let name ← (info.argNames ⟨info.argCount, h⟩).strcpy symbolName
      return { info with
        argNames := Function.update info.argNames ⟨info.argCount, h⟩ name
        argPositions := Function.update info.argPositions ⟨info.argCount, h⟩ entry.nValue
        argCount := info.argCount + 1 }
    else none
  else if entry.nType = SYMBOL_SOURCE_LINE then
    return { info with
      sourceLineAddress := info.functionAddress + entry.nValue
      sourceLineNumber := (entry.nDesc.toNat : Int) - 1 }
  else return info

/-- The loop of `get_debug_info`. -/
def scanStabs (stabstr : List UInt8) (pc : UInt32) :
    List SymbolTableEntry → DebugInfo → Option DebugInfo
  | [], info => some info
  | entry :: stab, info => do
      let info ← updateDebugInfo stabstr info entry
      if info.sourceLineAddress ≥ pc then return info else scanStabs stabstr pc stab info

/-- `get_debug_info(pc)`, where `info` is what the memory of the record holds at first. -/
def getDebugInfo (stabstr : List UInt8) (stab : List SymbolTableEntry) (info : DebugInfo)
    (pc : UInt32) : Option DebugInfo :=
  scanStabs stabstr pc stab (initDebugInfo info)

variable {stabstr str : List UInt8} {entry : SymbolTableEntry} {info info' : DebugInfo}
  {pc : UInt32}

/-! ### Names -/

theorem HoldsString.length_le {array str : List UInt8} {k : Nat} (h : HoldsString array str)
    (hk : array[k]? = some 0) : str.length ≤ k := by
  obtain ⟨h₀, rest, rfl⟩ := h
  by_contra hlt
  rw [List.getElem?_append_left (by omega)] at hk
  exact h₀ (List.mem_of_getElem? hk)

/-- The name in a symbol's string: what stands before the first colon. -/
def symbolName (str : List UInt8) : List UInt8 := str.takeWhile (!isDelimiter [58] ·)

/-- The first token of a string that starts with one. -/
theorem tokens_head {delimiters : List UInt8} (h : str.takeWhile (!isDelimiter delimiters ·) ≠ []) :
    (0, str.takeWhile (!isDelimiter delimiters ·)) ∈ (tokens delimiters str).take 1 := by
  obtain ⟨⟨rest, hrest⟩, hletters, hafter⟩ :=
    eq_takeWhile_iff.mp (rfl : str.takeWhile (!isDelimiter delimiters ·) = _)
  generalize str.takeWhile (!isDelimiter delimiters ·) = w at *
  subst hrest
  rw [List.getElem?_append_right le_rfl, Nat.sub_self, ← List.head?_eq_getElem?] at hafter
  rw [tokens, runs_word h hletters hafter]
  exact List.mem_cons_self

/-- `get_symbol_name` leaves a string that fits the array, and it is the name as far as there is
room. -/
theorem getSymbolName_holds (hstr : HoldsString (stabstr.drop entry.nStrx.toNat) str) :
    ∃ array name, getSymbolName stabstr entry (List.replicate nameMaxLength 0) = some array ∧
      HoldsString array name ∧ name.length < nameMaxLength ∧
      (symbolName str ≠ [] → name = (symbolName str).take (nameMaxLength - 1)) := by
  have hroom : nameMaxLength - 1 < (List.replicate nameMaxLength (0 : UInt8)).length := by
    rw [List.length_replicate]
    decide
  have hcopy := hstr.strlcpy hroom
  generalize List.drop _ (List.replicate nameMaxLength (0 : UInt8)) = tail at hcopy
  have hzero : 0 ∉ str.take (nameMaxLength - 1) := fun h => hstr.1 (List.mem_of_mem_take h)
  obtain ⟨s, hcall, hs⟩ := strtokCall_splitting [58] hzero tail none 0
  have hget : getSymbolName stabstr entry (List.replicate nameMaxLength 0) = some s.text := by
    rw [getSymbolName, show strlcpy _ _ nameMaxLength = _ from hcopy]
    simp only [Option.bind_eq_bind, Option.bind_some]
    rw [show strtok ⟨_ ++ 0 :: tail, none⟩ (some 0) [58] = _ from hcall]
    rfl
  -- the terminator is still there
  have hnul : s.text[(str.take (nameMaxLength - 1)).length]? = some 0 := by
    rcases hs.changed (str.take (nameMaxLength - 1)).length with h | h
    · rw [h, List.getElem?_append_right le_rfl, Nat.sub_self]
      rfl
    · exact h.1
  have hholds := holdsString_cstring (List.mem_of_getElem? hnul)
  have hlen : (str.take (nameMaxLength - 1)).length < nameMaxLength := by
    rw [List.length_take]
    exact Nat.lt_of_le_of_lt (Nat.min_le_left _ _) (by decide)
  refine ⟨s.text, _, hget, hholds, Nat.lt_of_le_of_lt (hholds.length_le hnul) hlen, fun hne => ?_⟩
  have htake : (symbolName str).take (nameMaxLength - 1) =
      (str.take (nameMaxLength - 1)).takeWhile (!isDelimiter [58] ·) := List.take_takeWhile
  have hne' : (symbolName str).take (nameMaxLength - 1) ≠ [] := by
    rw [Ne, List.take_eq_nil_iff, not_or]
    exact ⟨by decide, hne⟩
  rw [htake] at hne' ⊢
  exact (hs.strings _ (tokens_head hne')).cstring_eq

/-! ### One entry -/

theorem Buffer.strcpy_holds {n : Nat} {source : List UInt8} (b : Buffer n)
    (h : HoldsString source str) (hlen : str.length < n) :
    ∃ b', b.strcpy source = some b' ∧ HoldsString b'.bytes str := by
  have hcopy := h.strcpy (t := b.bytes) (by rw [b.length_eq]; exact hlen)
  unfold Buffer.strcpy
  split
  next t ht =>
    obtain rfl := Option.some.inj (ht.symm.trans hcopy)
    exact ⟨_, rfl, h.1, _, rfl⟩
  next ht => cases ht.symm.trans hcopy

/-- The string of an entry is there. -/
def SymbolTableEntry.Readable (stabstr : List UInt8) (entry : SymbolTableEntry) : Prop :=
  ∃ str, HoldsString (stabstr.drop entry.nStrx.toNat) str

/-- The function a record is in is the same. -/
structure SameFunction (info info' : DebugInfo) : Prop where
  address : info'.functionAddress = info.functionAddress
  function : info'.function = info.function

theorem SameFunction.refl (info : DebugInfo) : SameFunction info info := ⟨rfl, rfl⟩

theorem SameFunction.trans {info'' : DebugInfo} (h : SameFunction info info')
    (h' : SameFunction info' info'') : SameFunction info info'' :=
  ⟨h'.address.trans h.address, h'.function.trans h.function⟩

theorem update_function (info : DebugInfo) (htype : entry.nType = SYMBOL_FUNCTION)
    (hstr : HoldsString (stabstr.drop entry.nStrx.toNat) str) (hname : symbolName str ≠ []) :
    ∃ info', updateDebugInfo stabstr info entry = some info' ∧
      info'.functionAddress = entry.nValue ∧ info'.argCount = 0 ∧
      info'.sourceLineAddress = info.sourceLineAddress ∧
      HoldsString info'.function.bytes ((symbolName str).take (nameMaxLength - 1)) := by
  obtain ⟨array, name, hget, hholds, hlen, hsymbol⟩ := getSymbolName_holds hstr
  obtain ⟨b, hcopy, hb⟩ := info.function.strcpy_holds hholds hlen
  rw [hsymbol hname] at hb
  have hupdate : updateDebugInfo stabstr info entry =
      some { info with function := b, functionAddress := entry.nValue, argCount := 0 } := by
    rw [updateDebugInfo, hget]
    simp only [Option.bind_eq_bind, Option.bind_some]
    rw [if_neg (by rw [htype]; decide), if_pos htype, hcopy]
    rfl
  exact ⟨_, hupdate, rfl, rfl, rfl, hb⟩

theorem update_parameter (info : DebugInfo) (htype : entry.nType = SYMBOL_PARAMETER)
    (hread : entry.Readable stabstr) (hcount : info.argCount < argMaxCount) :
    ∃ info', updateDebugInfo stabstr info entry = some info' ∧ SameFunction info info' ∧
      info'.argCount = info.argCount + 1 ∧
      info'.sourceLineAddress = info.sourceLineAddress := by
  obtain ⟨str, hstr⟩ := hread
  obtain ⟨array, name, hget, hholds, hlen, -⟩ := getSymbolName_holds hstr
  obtain ⟨b, hcopy, -⟩ := (info.argNames ⟨info.argCount, hcount⟩).strcpy_holds hholds hlen
  have hupdate : updateDebugInfo stabstr info entry = some { info with
      argNames := Function.update info.argNames ⟨info.argCount, hcount⟩ b
      argPositions := Function.update info.argPositions ⟨info.argCount, hcount⟩ entry.nValue
      argCount := info.argCount + 1 } := by
    rw [updateDebugInfo, hget]
    simp only [Option.bind_eq_bind, Option.bind_some]
    rw [if_neg (by rw [htype]; decide), if_neg (by rw [htype]; decide), if_pos htype,
      dif_pos hcount, hcopy]
    rfl
  exact ⟨_, hupdate, ⟨rfl, rfl⟩, rfl, rfl⟩

/-- A fifth parameter is stored outside the arrays. -/
theorem update_parameter_outside (htype : entry.nType = SYMBOL_PARAMETER)
    (hcount : ¬ info.argCount < argMaxCount) : updateDebugInfo stabstr info entry = none := by
  rw [updateDebugInfo]
  cases getSymbolName stabstr entry (List.replicate nameMaxLength 0) with
  | none => rfl
  | some array =>
      simp only [Option.bind_eq_bind, Option.bind_some]
      rw [if_neg (by rw [htype]; decide), if_neg (by rw [htype]; decide), if_pos htype,
        dif_neg hcount]

theorem update_line (info : DebugInfo) (htype : entry.nType = SYMBOL_SOURCE_LINE)
    (hread : entry.Readable stabstr) :
    ∃ info', updateDebugInfo stabstr info entry = some info' ∧ SameFunction info info' ∧
      info'.sourceLineAddress = info.functionAddress + entry.nValue := by
  obtain ⟨str, hstr⟩ := hread
  obtain ⟨array, name, hget, -⟩ := getSymbolName_holds hstr
  have hupdate : updateDebugInfo stabstr info entry = some { info with
      sourceLineAddress := info.functionAddress + entry.nValue
      sourceLineNumber := (entry.nDesc.toNat : Int) - 1 } := by
    rw [updateDebugInfo, hget]
    simp only [Option.bind_eq_bind, Option.bind_some]
    rw [if_neg (by rw [htype]; decide), if_neg (by rw [htype]; decide),
      if_neg (by rw [htype]; decide), if_pos htype]
    rfl
  exact ⟨_, hupdate, ⟨rfl, rfl⟩, rfl⟩

/-! ### Passing entries -/

/-- The scan reads all of the entries and goes on. -/
inductive Passed (stabstr : List UInt8) (pc : UInt32) :
    DebugInfo → List SymbolTableEntry → DebugInfo → Prop
  | nil (info : DebugInfo) : Passed stabstr pc info [] info
  | cons {info info₁ info' : DebugInfo} {entry : SymbolTableEntry} {stab : List SymbolTableEntry}
      (h : updateDebugInfo stabstr info entry = some info₁) (hpc : info₁.sourceLineAddress < pc)
      (t : Passed stabstr pc info₁ stab info') : Passed stabstr pc info (entry :: stab) info'

variable {stab stab' rest : List SymbolTableEntry} {info'' : DebugInfo}

theorem scanStabs_pass (h : updateDebugInfo stabstr info entry = some info')
    (hpc : info'.sourceLineAddress < pc) :
    scanStabs stabstr pc (entry :: rest) info = scanStabs stabstr pc rest info' := by
  rw [scanStabs, h]
  exact if_neg (UInt32.not_le.mpr hpc)

theorem scanStabs_stop (h : updateDebugInfo stabstr info entry = some info')
    (hpc : pc ≤ info'.sourceLineAddress) :
    scanStabs stabstr pc (entry :: rest) info = some info' := by
  rw [scanStabs, h]
  exact if_pos hpc

theorem scanStabs_fault (h : updateDebugInfo stabstr info entry = none) :
    scanStabs stabstr pc (entry :: rest) info = none := by
  rw [scanStabs, h]
  rfl

theorem Passed.scan (h : Passed stabstr pc info stab info') :
    scanStabs stabstr pc (stab ++ rest) info = scanStabs stabstr pc rest info' := by
  induction h with
  | nil => rfl
  | cons h hpc _ ih => rw [List.cons_append, scanStabs_pass h hpc, ih]

theorem Passed.append (h : Passed stabstr pc info stab info')
    (h' : Passed stabstr pc info' stab' info'') :
    Passed stabstr pc info (stab ++ stab') info'' := by
  induction h with
  | nil => exact h'
  | cons h hpc _ ih => exact .cons h hpc (ih h')

theorem passed_parameters (htype : ∀ e ∈ stab, e.nType = SYMBOL_PARAMETER)
    (hread : ∀ e ∈ stab, e.Readable stabstr) (hcount : info.argCount + stab.length ≤ argMaxCount)
    (hpc : info.sourceLineAddress < pc) :
    ∃ info', Passed stabstr pc info stab info' ∧ SameFunction info info' ∧
      info'.sourceLineAddress < pc := by
  induction stab generalizing info with
  | nil => exact ⟨info, .nil info, .refl info, hpc⟩
  | cons e stab ih =>
      obtain ⟨he, htypes⟩ := List.forall_mem_cons.mp htype
      obtain ⟨hr, hreads⟩ := List.forall_mem_cons.mp hread
      rw [List.length_cons] at hcount
      obtain ⟨info₁, hupdate, hsame, harg, hline⟩ := update_parameter info he hr (by omega)
      rw [← hline] at hpc
      obtain ⟨info', hpassed, hsame', hpc'⟩ := ih htypes hreads (by omega) hpc
      exact ⟨info', .cons hupdate hpc hpassed, hsame.trans hsame', hpc'⟩

theorem scan_parameters_outside (htype : ∀ e ∈ stab, e.nType = SYMBOL_PARAMETER)
    (hread : ∀ e ∈ stab, e.Readable stabstr) (hcount : info.argCount ≤ argMaxCount)
    (hmany : argMaxCount < info.argCount + stab.length) (hpc : info.sourceLineAddress < pc) :
    scanStabs stabstr pc (stab ++ rest) info = none := by
  induction stab generalizing info with
  | nil => exact absurd hmany (Nat.not_lt.mpr hcount)
  | cons e stab ih =>
      obtain ⟨he, htypes⟩ := List.forall_mem_cons.mp htype
      obtain ⟨hr, hreads⟩ := List.forall_mem_cons.mp hread
      rw [List.length_cons] at hmany
      by_cases hlt : info.argCount < argMaxCount
      · obtain ⟨info₁, hupdate, -, harg, hline⟩ := update_parameter info he hr hlt
        rw [← hline] at hpc
        rw [List.cons_append, scanStabs_pass hupdate hpc]
        exact ih htypes hreads (by omega) (by omega) hpc
      · exact scanStabs_fault (update_parameter_outside he hlt)

theorem passed_lines (htype : ∀ e ∈ stab, e.nType = SYMBOL_SOURCE_LINE)
    (hread : ∀ e ∈ stab, e.Readable stabstr)
    (hlines : ∀ e ∈ stab, info.functionAddress + e.nValue < pc)
    (hpc : info.sourceLineAddress < pc) :
    ∃ info', Passed stabstr pc info stab info' ∧ SameFunction info info' ∧
      info'.sourceLineAddress < pc := by
  induction stab generalizing info with
  | nil => exact ⟨info, .nil info, .refl info, hpc⟩
  | cons e stab ih =>
      obtain ⟨he, htypes⟩ := List.forall_mem_cons.mp htype
      obtain ⟨hr, hreads⟩ := List.forall_mem_cons.mp hread
      obtain ⟨info₁, hupdate, hsame, hline⟩ := update_line info he hr
      obtain ⟨hlt, hlater⟩ := List.forall_mem_cons.mp hlines
      rw [← hline] at hlt
      rw [← hsame.address] at hlater
      obtain ⟨info', hpassed, hsame', hpc'⟩ := ih htypes hreads hlater hlt
      exact ⟨info', .cons hupdate hlt hpassed, hsame.trans hsame', hpc'⟩

theorem scan_lines_stop (rest : List SymbolTableEntry)
    (htype : ∀ e ∈ stab, e.nType = SYMBOL_SOURCE_LINE)
    (hread : ∀ e ∈ stab, e.Readable stabstr)
    (hline : ∃ e ∈ stab, pc ≤ info.functionAddress + e.nValue) :
    ∃ info', scanStabs stabstr pc (stab ++ rest) info = some info' ∧ SameFunction info info' := by
  induction stab generalizing info with
  | nil =>
      obtain ⟨e, he, -⟩ := hline
      exact absurd he List.not_mem_nil
  | cons e stab ih =>
      obtain ⟨he, htypes⟩ := List.forall_mem_cons.mp htype
      obtain ⟨hr, hreads⟩ := List.forall_mem_cons.mp hread
      obtain ⟨info₁, hupdate, hsame, haddr⟩ := update_line info he hr
      by_cases hpc : pc ≤ info₁.sourceLineAddress
      · exact ⟨info₁, scanStabs_stop hupdate hpc, hsame⟩
      · have hlater : ∃ d ∈ stab, pc ≤ info₁.functionAddress + d.nValue := by
          obtain ⟨d, hd, hle⟩ := hline
          rcases List.mem_cons.mp hd with rfl | hd
          · exact absurd (haddr ▸ hle) hpc
          · exact ⟨d, hd, hsame.address.symm ▸ hle⟩
        obtain ⟨info', hscan, hsame'⟩ := ih htypes hreads hlater
        refine ⟨info', ?_, hsame.trans hsame'⟩
        rw [List.cons_append, scanStabs_pass hupdate (UInt32.not_le.mp hpc), hscan]

/-! ### The functions of a table -/

/-- The entries of a function. -/
structure FunctionStabs where
  function : SymbolTableEntry
  parameters : List SymbolTableEntry
  lines : List SymbolTableEntry

namespace FunctionStabs

variable {f g h : FunctionStabs} {before after : List FunctionStabs}

def entries (f : FunctionStabs) : List SymbolTableEntry := f.function :: (f.parameters ++ f.lines)

def address (f : FunctionStabs) : UInt32 := f.function.nValue

/-- The function's name. -/
def name (stabstr : List UInt8) (f : FunctionStabs) : List UInt8 :=
  symbolName (cstring (stabstr.drop f.function.nStrx.toNat))

/-- The entries have their types and strings, and the lines have increasing offsets from 0 on. -/
structure Valid (stabstr : List UInt8) (f : FunctionStabs) : Prop where
  function : f.function.nType = SYMBOL_FUNCTION
  parameters : ∀ e ∈ f.parameters, e.nType = SYMBOL_PARAMETER
  lines : ∀ e ∈ f.lines, e.nType = SYMBOL_SOURCE_LINE
  readable : ∀ e ∈ f.entries, e.Readable stabstr
  named : f.name stabstr ≠ []
  first : ∃ e ∈ f.lines.head?, e.nValue = 0
  increasing : f.lines.Pairwise fun d e => d.nValue < e.nValue

/-- `g` has the higher address, and the offsets of the lines of `f` are less than the distance. -/
def Precedes (f g : FunctionStabs) : Prop :=
  f.address < g.address ∧ ∀ e ∈ f.lines, e.nValue < g.address - f.address

theorem Precedes.line_lt (h : Precedes f g) : ∀ e ∈ f.lines, f.address + e.nValue < g.address := by
  intro e he
  have hlt := UInt32.lt_iff_toNat_lt.mp h.1
  have hoff := UInt32.lt_iff_toNat_lt.mp (h.2 e he)
  rw [UInt32.toNat_sub_of_le _ _ (UInt32.le_iff_toNat_le.mpr hlt.le)] at hoff
  have hg := g.address.toNat_lt
  rw [UInt32.lt_iff_toNat_lt, UInt32.toNat_add, Nat.mod_eq_of_lt (by omega)]
  omega

theorem Precedes.trans (hfg : Precedes f g) (hgh : Precedes g h) : Precedes f h := by
  refine ⟨UInt32.lt_trans hfg.1 hgh.1, fun e he => ?_⟩
  have h₁ := UInt32.lt_iff_toNat_lt.mp hfg.1
  have h₂ := UInt32.lt_iff_toNat_lt.mp hgh.1
  have hoff := UInt32.lt_iff_toNat_lt.mp (hfg.2 e he)
  rw [UInt32.toNat_sub_of_le _ _ (UInt32.le_iff_toNat_le.mpr h₁.le)] at hoff
  rw [UInt32.lt_iff_toNat_lt, UInt32.toNat_sub_of_le _ _ (UInt32.le_iff_toNat_le.mpr (by omega))]
  omega

/-- The record is in the function `f`, with as much of the name as there is room for. -/
structure Inside (stabstr : List UInt8) (f : FunctionStabs) (info : DebugInfo) : Prop where
  address : info.functionAddress = f.address
  name : HoldsString info.function.bytes ((f.name stabstr).take (nameMaxLength - 1))

theorem Inside.same (h : f.Inside stabstr info) (hs : SameFunction info info') :
    f.Inside stabstr info' :=
  ⟨hs.address.trans h.address, hs.function ▸ h.name⟩

/-- The entry of the function itself. -/
theorem Valid.enter (hf : f.Valid stabstr) (info : DebugInfo) :
    ∃ info', updateDebugInfo stabstr info f.function = some info' ∧ f.Inside stabstr info' ∧
      info'.argCount = 0 ∧ info'.sourceLineAddress = info.sourceLineAddress := by
  obtain ⟨str, hstr⟩ := hf.readable f.function List.mem_cons_self
  have hnamed := hf.named
  have hname : f.name stabstr = symbolName str := by rw [name, hstr.cstring_eq]
  rw [hname] at hnamed
  obtain ⟨info', hupdate, haddr, hargs, hline, hholds⟩ :=
    update_function info hf.function hstr hnamed
  exact ⟨info', hupdate, ⟨haddr, hname ▸ hholds⟩, hargs, hline⟩

theorem Valid.readable_parameters (hf : f.Valid stabstr) :
    ∀ e ∈ f.parameters, e.Readable stabstr := fun e he =>
  hf.readable e (List.mem_cons_of_mem _ (List.mem_append_left _ he))

theorem Valid.readable_lines (hf : f.Valid stabstr) : ∀ e ∈ f.lines, e.Readable stabstr :=
  fun e he => hf.readable e (List.mem_cons_of_mem _ (List.mem_append_right _ he))

/-- The scan comes to the lines of a function. -/
theorem Valid.passed_parameters (hf : f.Valid stabstr) (hfew : f.parameters.length ≤ argMaxCount)
    (hpc : info.sourceLineAddress < pc) :
    ∃ info', Passed stabstr pc info (f.function :: f.parameters) info' ∧ f.Inside stabstr info' ∧
      info'.sourceLineAddress < pc := by
  obtain ⟨info₁, hupdate, hin, hargs, hline⟩ := hf.enter info
  rw [← hline] at hpc
  obtain ⟨info', hpassed, hsame, hpc'⟩ :=
    Arunos.passed_parameters hf.parameters hf.readable_parameters (by omega) hpc
  exact ⟨info', .cons hupdate hpc hpassed, hin.same hsame, hpc'⟩

/-- The scan passes a function whose lines are all before the program counter. -/
theorem Valid.passed (hf : f.Valid stabstr) (hfew : f.parameters.length ≤ argMaxCount)
    (hlines : ∀ e ∈ f.lines, f.address + e.nValue < pc) (hpc : info.sourceLineAddress < pc) :
    ∃ info', Passed stabstr pc info f.entries info' ∧ f.Inside stabstr info' ∧
      info'.sourceLineAddress < pc := by
  obtain ⟨info₁, hpassed, hin, hpc₁⟩ := hf.passed_parameters hfew hpc
  obtain ⟨info', hpassed', hsame, hpc'⟩ :=
    passed_lines hf.lines hf.readable_lines (hin.address.symm ▸ hlines) hpc₁
  exact ⟨info', hpassed.append hpassed', hin.same hsame, hpc'⟩

/-- The scan stops in a function with a line at or after the program counter. -/
theorem Valid.scan_stop (hf : f.Valid stabstr) (rest : List SymbolTableEntry)
    (hfew : f.parameters.length ≤ argMaxCount)
    (hline : ∃ e ∈ f.lines, pc ≤ f.address + e.nValue) (hpc : info.sourceLineAddress < pc) :
    ∃ info', scanStabs stabstr pc (f.entries ++ rest) info = some info' ∧
      f.Inside stabstr info' := by
  obtain ⟨info₁, hpassed, hin, hpc₁⟩ := hf.passed_parameters hfew hpc
  obtain ⟨info', hscan, hsame⟩ := scan_lines_stop rest hf.lines hf.readable_lines
    (hin.address.symm ▸ hline)
  refine ⟨info', ?_, hin.same hsame⟩
  rw [entries, ← List.cons_append, List.append_assoc, hpassed.scan, hscan]

/-- The scan does not survive a function with too many parameters. -/
theorem Valid.scan_outside (hf : f.Valid stabstr) (hmany : argMaxCount < f.parameters.length)
    (hpc : info.sourceLineAddress < pc) :
    scanStabs stabstr pc (f.entries ++ rest) info = none := by
  obtain ⟨info₁, hupdate, -, hargs, hline⟩ := hf.enter info
  rw [← hline] at hpc
  rw [entries, List.cons_append, scanStabs_pass hupdate hpc, List.append_assoc]
  exact scan_parameters_outside hf.parameters hf.readable_parameters (by omega) (by omega) hpc

/-- The scan ends in a function whose first line is after the program counter. -/
theorem Valid.scan_beyond (hf : f.Valid stabstr) (hbeyond : pc < f.address)
    (hpc : info.sourceLineAddress < pc)
    (hscan : scanStabs stabstr pc (f.entries ++ rest) info = some info') :
    info'.functionAddress = f.address := by
  by_cases hfew : f.parameters.length ≤ argMaxCount
  · obtain ⟨e, he, hzero⟩ := hf.first
    have hline : pc ≤ f.address + e.nValue := by
      rw [hzero, UInt32.add_zero]
      exact UInt32.le_of_lt hbeyond
    obtain ⟨info₁, hscan', hin⟩ :=
      hf.scan_stop rest hfew ⟨e, List.mem_of_head? he, hline⟩ hpc
    obtain rfl := Option.some.inj (hscan'.symm.trans hscan)
    exact hin.address
  · rw [hf.scan_outside (Nat.not_le.mp hfew) hpc] at hscan
    cases hscan

/-- The scan passes the functions before the program counter. -/
theorem passed_all (hvalid : ∀ g ∈ before, g.Valid stabstr)
    (hfew : ∀ g ∈ before, g.parameters.length ≤ argMaxCount)
    (hlines : ∀ g ∈ before, ∀ e ∈ g.lines, g.address + e.nValue < pc)
    (hpc : info.sourceLineAddress < pc) :
    ∃ info', Passed stabstr pc info (before.flatMap entries) info' ∧
      info'.sourceLineAddress < pc := by
  induction before generalizing info with
  | nil => exact ⟨info, .nil info, hpc⟩
  | cons g before ih =>
      obtain ⟨hg, hvalid'⟩ := List.forall_mem_cons.mp hvalid
      obtain ⟨hfew₁, hfew'⟩ := List.forall_mem_cons.mp hfew
      obtain ⟨hlines₁, hlines'⟩ := List.forall_mem_cons.mp hlines
      obtain ⟨info₁, hpassed, -, hpc₁⟩ := hg.passed hfew₁ hlines₁ hpc
      obtain ⟨info', hpassed', hpc'⟩ := ih hvalid' hfew' hlines' hpc₁
      exact ⟨info', hpassed.append hpassed', hpc'⟩

theorem scan_outside (hvalid : ∀ g ∈ before, g.Valid stabstr)
    (hlines : ∀ g ∈ before, ∀ e ∈ g.lines, g.address + e.nValue < pc)
    (hmany : ∃ g ∈ before, argMaxCount < g.parameters.length)
    (hpc : info.sourceLineAddress < pc) :
    scanStabs stabstr pc (before.flatMap entries ++ rest) info = none := by
  induction before generalizing info with
  | nil =>
      obtain ⟨g, hg, -⟩ := hmany
      exact absurd hg List.not_mem_nil
  | cons g before ih =>
      obtain ⟨hg, hvalid'⟩ := List.forall_mem_cons.mp hvalid
      obtain ⟨hlines₁, hlines'⟩ := List.forall_mem_cons.mp hlines
      rw [List.flatMap_cons, List.append_assoc]
      by_cases hfew : g.parameters.length ≤ argMaxCount
      · obtain ⟨info₁, hpassed, -, hpc₁⟩ := hg.passed hfew hlines₁ hpc
        rw [hpassed.scan]
        refine ih hvalid' hlines' ?_ hpc₁
        obtain ⟨d, hd, hmany⟩ := hmany
        rcases List.mem_cons.mp hd with rfl | hd
        · exact absurd hmany (Nat.not_lt.mpr hfew)
        · exact ⟨d, hd, hmany⟩
      · exact hg.scan_outside (Nat.not_le.mp hfew) hpc

/-- The record gives the function's name and address. -/
structure Reports (stabstr : List UInt8) (f : FunctionStabs) (info : DebugInfo) : Prop where
  name : HoldsString info.function.bytes (f.name stabstr)
  address : info.functionAddress = f.address

/-- The functions are listed in the order of their addresses. -/
structure Listed (stabstr : List UInt8) (functions : List FunctionStabs) : Prop where
  valid : ∀ f ∈ functions, f.Valid stabstr
  ordered : functions.IsChain Precedes

theorem Inside.reports_iff (h : f.Inside stabstr info) :
    f.Reports stabstr info ↔ (f.name stabstr).length < nameMaxLength := by
  constructor
  · intro hr
    have heq : (f.name stabstr).take (nameMaxLength - 1) = f.name stabstr :=
      h.name.cstring_eq.symm.trans hr.name.cstring_eq
    have hle := congrArg List.length heq
    rw [List.length_take] at hle
    have hmax : nameMaxLength = 128 := rfl
    omega
  · intro hlt
    have hname := h.name
    rw [List.take_of_length_le (Nat.le_sub_one_of_lt hlt)] at hname
    exact ⟨hname, h.address⟩

theorem Listed.precedes (h : Listed stabstr (before ++ f :: after)) :
    ∀ g ∈ before, Precedes g f := by
  have : IsTrans FunctionStabs Precedes := ⟨fun _ _ _ => .trans⟩
  intro g hg
  exact (List.pairwise_append.mp (List.isChain_iff_pairwise.mp h.ordered)).2.2 g hg f
    List.mem_cons_self

theorem Listed.lines_lt (h : Listed stabstr (before ++ f :: after)) (hpc : f.address ≤ pc) :
    ∀ g ∈ before, ∀ e ∈ g.lines, g.address + e.nValue < pc := fun g hg e he =>
  UInt32.lt_of_lt_of_le ((h.precedes g hg).line_lt e he) hpc

theorem Listed.valid_before (h : Listed stabstr (before ++ f :: after)) :
    ∀ g ∈ before, g.Valid stabstr := fun g hg => h.valid g (List.mem_append_left _ hg)

/-- What `get_debug_info` finds for a program counter in `f`: the function, if one of its lines is
at or after the program counter or it is the last one. -/
theorem Listed.scan (h : Listed stabstr (before ++ f :: after)) (hpc : f.address ≤ pc)
    (hnext : ∀ g ∈ after.head?, pc < g.address)
    (hfew : ∀ g ∈ before ++ [f], g.parameters.length ≤ argMaxCount)
    (hstart : info.sourceLineAddress < pc) :
    (∃ info', scanStabs stabstr pc ((before ++ f :: after).flatMap entries) info = some info' ∧
        f.Inside stabstr info' ∧ (after = [] ∨ ∃ e ∈ f.lines, pc ≤ f.address + e.nValue)) ∨
      (∀ info', scanStabs stabstr pc ((before ++ f :: after).flatMap entries) info = some info' →
        info'.functionAddress ≠ f.address) ∧
        ¬ (after = [] ∨ ∃ e ∈ f.lines, pc ≤ f.address + e.nValue) := by
  have hf := h.valid f (by simp)
  have hfew' := hfew f (by simp)
  obtain ⟨info₁, hpassed, hpc₁⟩ := passed_all h.valid_before
    (fun g hg => hfew g (List.mem_append_left _ hg)) (h.lines_lt hpc) hstart
  rw [List.flatMap_append, hpassed.scan, List.flatMap_cons]
  by_cases hline : ∃ e ∈ f.lines, pc ≤ f.address + e.nValue
  · obtain ⟨info', hscan, hin⟩ := hf.scan_stop (after.flatMap entries) hfew' hline hpc₁
    exact .inl ⟨info', hscan, hin, .inr hline⟩
  · have hlines : ∀ e ∈ f.lines, f.address + e.nValue < pc := fun e he =>
      UInt32.not_le.mp fun hle => hline ⟨e, he, hle⟩
    obtain ⟨info₂, hpassed₂, hin, hpc₂⟩ := hf.passed hfew' hlines hpc₁
    rw [hpassed₂.scan]
    cases after with
    | nil => exact .inl ⟨info₂, rfl, hin, .inl rfl⟩
    | cons g after =>
        -- the next function is entered before its first line stops the scan
        have hg := hnext g rfl
        refine .inr ⟨fun info' hscan => ?_, by simp [hline]⟩
        rw [(h.valid g (by simp)).scan_beyond hg hpc₂ hscan]
        exact (UInt32.ne_of_lt (UInt32.lt_of_le_of_lt hpc hg)).symm

/-- The scan does not survive a function up to `f` with too many parameters. -/
theorem Listed.scan_outside (h : Listed stabstr (before ++ f :: after)) (hpc : f.address ≤ pc)
    (hmany : ¬ ∀ g ∈ before ++ [f], g.parameters.length ≤ argMaxCount)
    (hstart : info.sourceLineAddress < pc) :
    scanStabs stabstr pc ((before ++ f :: after).flatMap entries) info = none := by
  rw [List.flatMap_append]
  by_cases hfew : ∀ g ∈ before, g.parameters.length ≤ argMaxCount
  · have hf : argMaxCount < f.parameters.length := by
      by_contra hle
      refine hmany fun g hg => ?_
      rcases List.mem_append.mp hg with hg | hg
      · exact hfew g hg
      · exact List.mem_singleton.mp hg ▸ Nat.not_lt.mp hle
    obtain ⟨info₁, hpassed, hpc₁⟩ := passed_all h.valid_before hfew (h.lines_lt hpc) hstart
    rw [hpassed.scan, List.flatMap_cons]
    exact (h.valid f (by simp)).scan_outside hf hpc₁
  · refine FunctionStabs.scan_outside h.valid_before (h.lines_lt hpc) ?_ hstart
    simpa using hfew

/-- For the program counter 0 the scan stops at the first entry. -/
theorem Listed.scan_zero (h : Listed stabstr (before ++ f :: after)) (hpc : f.address ≤ 0)
    (info : DebugInfo) :
    ∃ info', scanStabs stabstr 0 ((before ++ f :: after).flatMap entries) info = some info' ∧
      f.Inside stabstr info' := by
  cases before with
  | nil =>
      obtain ⟨info', hupdate, hin, -⟩ := (h.valid f (by simp)).enter info
      exact ⟨info', scanStabs_stop hupdate UInt32.zero_le, hin⟩
  | cons g before =>
      have hlt := UInt32.lt_of_lt_of_le (h.precedes g List.mem_cons_self).1 hpc
      exact absurd hlt UInt32.not_lt_zero

/-- A record of the scan that is in `f` reports it if the name fits. -/
theorem Inside.exists_reports_iff {r : Option DebugInfo} (hr : r = some info)
    (h : f.Inside stabstr info) :
    (∃ info', r = some info' ∧ f.Reports stabstr info') ↔
      (f.name stabstr).length < nameMaxLength := by
  subst hr
  rw [← h.reports_iff]
  constructor
  · rintro ⟨info', hinfo, hreports⟩
    obtain rfl := Option.some.inj hinfo
    exact hreports
  · exact fun hreports => ⟨info, rfl, hreports⟩

end FunctionStabs

open FunctionStabs

/-- **Which function is reported.**  In a table that lists functions in the order of their
addresses, for a program counter from the address of `f` on and below that of the next function,
`get_debug_info` reports `f` if and only if no function up to `f` has more than four parameters (or
the program counter is 0), `f` has a line at or after the program counter or is the last function of
the table, and the name is shorter than the array it is copied to. -/
theorem getDebugInfo_reports_iff {stabstr : List UInt8} {before after : List FunctionStabs}
    {f : FunctionStabs} (hlisted : Listed stabstr (before ++ f :: after)) {pc : UInt32}
    (hpc : f.address ≤ pc) (hnext : ∀ g ∈ after.head?, pc < g.address) (info : DebugInfo) :
    (∃ info', getDebugInfo stabstr ((before ++ f :: after).flatMap entries) info pc = some info' ∧
        f.Reports stabstr info') ↔
      (pc = 0 ∨ ∀ g ∈ before ++ [f], g.parameters.length ≤ argMaxCount) ∧
      (after = [] ∨ ∃ e ∈ f.lines, pc ≤ f.address + e.nValue) ∧
      (f.name stabstr).length < nameMaxLength := by
  rw [getDebugInfo]
  by_cases hzero : pc = 0
  · subst hzero
    obtain ⟨e, he, -⟩ := (hlisted.valid f (by simp)).first
    obtain ⟨info', hscan, hin⟩ := hlisted.scan_zero hpc (initDebugInfo info)
    rw [hin.exists_reports_iff hscan]
    exact ⟨fun h => ⟨.inl rfl, .inr ⟨e, List.mem_of_head? he, UInt32.zero_le⟩, h⟩, fun h => h.2.2⟩
  · have hstart : (initDebugInfo info).sourceLineAddress < pc := UInt32.pos_iff_ne_zero.mpr hzero
    by_cases hfew : ∀ g ∈ before ++ [f], g.parameters.length ≤ argMaxCount
    · rcases hlisted.scan hpc hnext hfew hstart with ⟨info', hscan, hin, hline⟩ | ⟨hother, hline⟩
      · rw [hin.exists_reports_iff hscan]
        exact ⟨fun h => ⟨.inr hfew, hline, h⟩, fun h => h.2.2⟩
      · refine iff_of_false ?_ fun h => hline h.2.1
        rintro ⟨info', hscan, hreports⟩
        exact hother info' hscan hreports.address
    · refine iff_of_false ?_ fun h => h.1.elim hzero hfew
      rintro ⟨info', hscan, -⟩
      rw [hlisted.scan_outside hpc hfew hstart] at hscan
      cases hscan

/-! ### Two functions -/

/-- The strings `f:F1` and `g:F1`. -/
def pairStabstr : List UInt8 := [0, 102, 58, 70, 49, 0, 103, 58, 70, 49, 0]

/-- The function `f` at 0x100, with lines at the offsets 0 and 4. -/
def pairFirst : FunctionStabs where
  function := ⟨1, SYMBOL_FUNCTION, 0, 0x100⟩
  parameters := []
  lines := [⟨0, SYMBOL_SOURCE_LINE, 10, 0⟩, ⟨0, SYMBOL_SOURCE_LINE, 11, 4⟩]

/-- The function `g` at 0x200, with a line at the offset 0. -/
def pairSecond : FunctionStabs where
  function := ⟨6, SYMBOL_FUNCTION, 0, 0x200⟩
  parameters := []
  lines := [⟨0, SYMBOL_SOURCE_LINE, 20, 0⟩]

theorem pair_listed : Listed pairStabstr [pairFirst, pairSecond] := by
  have hempty : HoldsString (pairStabstr.drop 0) [] := .nil _
  have hf : HoldsString (pairStabstr.drop 1) [102, 58, 70, 49] := ⟨by decide, _, rfl⟩
  have hg : HoldsString (pairStabstr.drop 6) [103, 58, 70, 49] := ⟨by decide, _, rfl⟩
  refine ⟨?_, ?_⟩
  · rintro f hfun
    rcases List.mem_pair.mp hfun with rfl | rfl
    · refine ⟨rfl, by decide, by decide, ?_, by decide, ⟨_, rfl, rfl⟩, by decide⟩
      rintro e he
      simp only [entries, pairFirst, List.nil_append, List.mem_cons, List.not_mem_nil,
        or_false] at he
      rcases he with rfl | rfl | rfl
      · exact ⟨_, hf⟩
      · exact ⟨_, hempty⟩
      · exact ⟨_, hempty⟩
    · refine ⟨rfl, by decide, by decide, ?_, by decide, ⟨_, rfl, rfl⟩, by decide⟩
      rintro e he
      simp only [entries, pairSecond, List.nil_append, List.mem_cons, List.not_mem_nil,
        or_false] at he
      rcases he with rfl | rfl
      · exact ⟨_, hg⟩
      · exact ⟨_, hempty⟩
  · refine .cons_cons ⟨by decide, by decide⟩ (.singleton _)

/-- A record of zeros. -/
def blankInfo : DebugInfo where
  file := ⟨List.replicate nameMaxLength 0, List.length_replicate⟩
  function := ⟨List.replicate nameMaxLength 0, List.length_replicate⟩
  functionAddress := 0
  argCount := 0
  argNames := fun _ => ⟨List.replicate nameMaxLength 0, List.length_replicate⟩
  argPositions := fun _ => 0
  sourceLineNumber := 0
  sourceLineAddress := 0

/-- Between the two lines of `f` the conditions hold. -/
theorem getDebugInfo_reports_between_lines :
    (∃ info', getDebugInfo pairStabstr ([pairFirst, pairSecond].flatMap entries) blankInfo 0x102 =
      some info' ∧ pairFirst.Reports pairStabstr info') := by
  refine (@getDebugInfo_reports_iff pairStabstr [] [pairSecond] pairFirst pair_listed 0x102
    (by decide) ?_ blankInfo).mpr
    ⟨.inr (by decide), .inr ⟨⟨0, SYMBOL_SOURCE_LINE, 11, 4⟩, ?_, by decide⟩, by decide⟩
  · rintro g hg
    obtain rfl : pairSecond = g := by simpa using hg
    decide
  · simp [pairFirst]

/-- After the last line of `f` its successor is reported: the entry of `g` is read before a line of
`g` stops the scan. -/
theorem getDebugInfo_reports_next_function :
    Listed pairStabstr [pairFirst, pairSecond] ∧
      pairFirst.address ≤ 0x108 ∧ 0x108 < pairSecond.address ∧
      ∃ info', getDebugInfo pairStabstr ([pairFirst, pairSecond].flatMap entries) blankInfo 0x108 =
        some info' ∧ info'.functionAddress = pairSecond.address ∧
        HoldsString info'.function.bytes (pairSecond.name pairStabstr) ∧
        ¬ pairFirst.Reports pairStabstr info' := by
  refine ⟨pair_listed, by decide, by decide, ?_⟩
  have heval : (getDebugInfo pairStabstr ([pairFirst, pairSecond].flatMap entries) blankInfo
      0x108).map (fun info => (info.functionAddress, info.function.bytes.take 2)) =
      some (0x200, [103, 0]) := by
    decide +kernel
  obtain ⟨info', hinfo, heq⟩ := Option.map_eq_some_iff.mp heval
  obtain ⟨haddr, hbytes⟩ := Prod.mk.inj heq
  refine ⟨info', hinfo, haddr, ⟨by decide, info'.function.bytes.drop 2, ?_⟩, fun h => ?_⟩
  · rw [← List.take_append_drop 2 info'.function.bytes, hbytes]
    rfl
  · exact absurd (haddr.symm.trans h.address) (by decide)

end Arunos
