import KedrAux.Lib.While
import KedrAux.MistEngine.MistString

/-!
# Configuration files

The lines of a configuration file are read to one buffer.  The type of a line is found out by
`mist_cfg_get_line_type`; the other lines of a value are then read behind the first one, or over
it, by `mist_cfg_get_singleline_value` and `mist_cfg_get_multiline_value`.

Allocations succeed, and the file can be read.
-/

namespace KedrAux
namespace MistEngine

open CharBuffer
open MistEngine.Parser (wspace isSpace stringTrim)

def mistStringTrim (ms : CMistString) : Except Fault CMistString := do
  ms.assertInside
  let len ← strlen ms.buf ms.str
  if len = 0 then return ms
  else
    let end_ := ms.str + len
    let begNew ← findFirst (fun c => !isSpace c) ms.buf ms.str end_
    if begNew = end_ then return ⟨← store ms.buf ms.str 0, ms.str⟩
    else
      let endNew ← findLast (fun c => !isSpace c) ms.buf ms.str end_
      if endNew ≠ end_ then
        CharBuffer.assert (endNew + 1 < ms.buf.length ∧ begNew < endNew + 1)
        return ⟨← store ms.buf (endNew + 1) 0, begNew⟩
      else return ⟨ms.buf, begNew⟩

def CMistString.copy (ms : CMistString) : Except Fault Str := do
  return range ms.buf ms.str (ms.str + (← strlen ms.buf ms.str))

def mistStringReset (ms : CMistString) : Except Fault CMistString := do
  ms.assertInside
  return ⟨← store ms.buf 0 0, 0⟩

inductive EMistErrorCode where
  | mistSyntaxError
  | mistReadFileFailed
deriving DecidableEq

inductive EMistLineType where
  | mltSingle
  | mltMulti
  | mltComment
  | mltBlank
  | mltNoEq
  | mltBadMulti
deriving DecidableEq

def errFileReadFailed : String := "an error occured while trying to read data from the file"

def errUnexpectedEOF : String := "unexpected end of the file found"

def errEqExpected : String := "line %u: expected '='"

def errBadCharsAfterMLBegin : String :=
  "line %u: only whitespace characters are allowed after \"=>>\" at the same line"

def errEmptyName : String := "line %u: name of a parameter is missing"

/-- An error has a code, and the format and the line number of its description. -/
inductive ConfigStop where
  | fault (fault : Fault)
  | failed (code : EMistErrorCode) (format : String) (line : Nat)
deriving DecidableEq

def access {α : Type} : Except Fault α → Except ConfigStop α
  | .ok a => .ok a
  | .error fault => .error (.fault fault)

def mlBeg : Str := [61, 62, 62]

def mlEnd : Str := [60, 60]

def nextLine (lineNo : Nat) : Nat :=
  (lineNo + 1) % 2 ^ 32

def intOfLong (n : Int) : Int :=
  n.bmod (2 ^ 32)

/-- The end of `mist_cfg_get_line_type`, with the offsets of "=" and of the end of the line. -/
def mistCfgGetValueType (ms : CMistString) (name : Str) (pos end_ : Nat) :
    Except Fault (EMistLineType × Option Str × CMistString) := do
  if (text ms.buf pos).take mlBeg.length = mlBeg then
    let pos ← findFirst (fun c => !isSpace c) ms.buf (pos + mlBeg.length) end_
    if pos ≠ end_ then return (.mltBadMulti, none, ms)
    else return (.mltMulti, some name, ← mistStringReset ms)
  else
    let pos ← findFirst (fun c => !isSpace c) ms.buf (pos + 1) end_
    return (.mltSingle, some name, ⟨ms.buf, pos⟩)

def mistCfgGetLineType (ms : CMistString) :
    Except Fault (EMistLineType × Option Str × CMistString) := do
  let ms ← mistStringTrim ms
  let c ← load ms.buf ms.str
  if c = 35 then return (.mltComment, none, ms)
  else if c = 0 then return (.mltBlank, none, ms)
  else
    let end_ := ms.str + (← strlen ms.buf ms.str)
    -- the name ends in front of a space, a tab or "="
    let nameEnd ← findFirst (fun c => [32, 9, 61].contains c) ms.buf ms.str end_
    let pos ← findFirst (fun c => !isSpace c) ms.buf nameEnd end_
    if (← load ms.buf pos) ≠ 61 then return (.mltNoEq, none, ms)
    else mistCfgGetValueType ms (range ms.buf ms.str nameEnd) pos end_

/-- The variables of `mist_cfg_get_singleline_value`; `stopped` after the `break`. -/
structure SingleState where
  buf : List UInt8
  beg : Nat
  end_ : Nat
  bsize : Int
  fs : Str
  lineNo : Nat
  stopped : Bool

/-- The variables in front of the loop, for a string of the length `len`. -/
def SingleState.start (val : CMistString) (len : Nat) (bsize : Int) (fs : Str) (lineNo : Nat) :
    SingleState :=
  ⟨val.buf, val.str, val.str + (len - 1), bsize, fs, lineNo, false⟩

/-- `while (*end == '\\')` -/
def SingleState.more (s : SingleState) : Except ConfigStop Bool :=
  if s.stopped then .ok false
  else do return (← access (load s.buf s.end_)) = 92

/-- The end of a round: the trimmed copy `ts` of the line at `beg` is put there. -/
def SingleState.place (s : SingleState) (buf : List UInt8) (beg : Nat) (fs : Str)
    (ts : CMistString) : Except ConfigStop SingleState := do
  let lineNo := nextLine s.lineNo
  let len ← access (strlen ts.buf ts.str)
  if 0 < len then
    let buf ← access (CharBuffer.strncpy buf beg ts.buf ts.str (len + 1))
    let bsize := s.bsize - len
    if bsize < 1 then .error (.failed .mistReadFileFailed errFileReadFailed 0)
    else return ⟨buf, beg, beg + (len - 1), bsize, fs, lineNo, false⟩
  else
    -- only white space was read
    let buf ← access (store buf (beg - 1) 0)
    return ⟨buf, beg - 1, s.end_, s.bsize, fs, lineNo, true⟩

def SingleState.round (junk : Nat → UInt8) (s : SingleState) : Except ConfigStop SingleState := do
  let pos ← access (findLast (fun c => !isSpace c) s.buf s.beg s.end_)
  let beg := if pos ≠ s.end_ then pos + 1 else pos
  let buf ← access (store s.buf beg 32)
  let beg := beg + 1
  match ← access (fgets buf beg (intOfLong s.bsize) s.fs) with
  | none => .error (.failed .mistSyntaxError errUnexpectedEOF 0)
  | some (buf, fs) =>
    let ts ← access (mistStringCreate junk buf beg)
    let ts ← access (mistStringTrim ts)
    s.place buf beg fs ts

/-- What is left when a value was read: the buffer, the file and the number of the line; and
the value that was added to the string map. -/
structure ValueRead where
  ms : CMistString
  fs : Str
  lineNo : Nat
  value : Str
deriving DecidableEq

def mistCfgGetSinglelineValue (junk : Nat → UInt8) (name : Str) (fs : Str) (bsize : Int)
    (val : CMistString) (lineNo : Nat) : Except ConfigStop ValueRead := do
  access (CharBuffer.assert (name ≠ [] ∧ 1 ≤ bsize ∧ 1 ≤ lineNo))
  let len ← access (strlen val.buf val.str)
  if len = 0 then return ⟨val, fs, lineNo, ← access val.copy⟩
  else
    let bsize := bsize - (val.str + len)
    access (CharBuffer.assert (1 ≤ bsize))
    let s ← While.run (.fault .endless) SingleState.more (SingleState.round junk)
      (fs.length + 2) (SingleState.start val len bsize fs lineNo)
    let val : CMistString := ⟨s.buf, val.str⟩
    return ⟨val, s.fs, s.lineNo, ← access val.copy⟩

/-- The variables of `mist_cfg_get_multiline_value`; `stopped` after the `break`. -/
structure MultiState where
  buf : List UInt8
  beg : Nat
  bsize : Int
  fs : Str
  lineNo : Nat
  stopped : Bool

/-- `while (1)` -/
def MultiState.more (s : MultiState) : Except ConfigStop Bool :=
  .ok !s.stopped

def MultiState.round (s : MultiState) : Except ConfigStop MultiState := do
  match ← access (fgets s.buf s.beg (intOfLong s.bsize) s.fs) with
  | none => .error (.failed .mistSyntaxError errUnexpectedEOF 0)
  | some (buf, fs) =>
    let lineNo := nextLine s.lineNo
    let len ← access (strlen buf s.beg)
    let posBeg ← access (findFirst (fun c => !isSpace c) buf s.beg (s.beg + len))
    let posEnd ← access (findLast (fun c => !isSpace c) buf s.beg (s.beg + len))
    if (posEnd - posBeg : Int) + 1 = mlEnd.length ∧
        (text buf posBeg).take mlEnd.length = mlEnd then
      let buf ← access (store buf s.beg 0)
      return ⟨buf, s.beg, s.bsize, fs, lineNo, true⟩
    else return ⟨buf, s.beg + len, s.bsize - len, fs, lineNo, false⟩

def mistCfgGetMultilineValue (name : Str) (fs : Str) (bsize : Int) (val : CMistString)
    (lineNo : Nat) : Except ConfigStop ValueRead := do
  access (CharBuffer.assert (name ≠ [] ∧ 1 ≤ bsize ∧ 1 ≤ lineNo))
  let s ← While.run (.fault .endless) MultiState.more MultiState.round (fs.length + 2)
    ⟨val.buf, val.str, bsize, fs, lineNo, false⟩
  let val ← access (mistStringTrim ⟨s.buf, val.str⟩)
  return ⟨val, s.fs, s.lineNo, ← access val.copy⟩

/-- The variables of `mist_load_config_file`; the string map is the list of what was added. -/
structure LoadState where
  ms : CMistString
  fs : Str
  lineNo : Nat
  sm : List (Str × Str)
deriving DecidableEq

/-- `smap_add_element(sm, name, val)` -/
def LoadState.add (s : LoadState) (name : Str) (r : ValueRead) : LoadState :=
  ⟨r.ms, r.fs, r.lineNo, s.sm ++ [(name, r.value)]⟩

/-- `size` in `mist_load_config_file`: the size of the file, and two more. -/
def configSize (file : Str) : Int :=
  file.length + 2

/-- The variables of `mist_load_config_file` in front of its loop. -/
def LoadState.start (junk : Nat → UInt8) (file : Str) : Except Fault LoadState := do
  let ms ← mistStringCreateEmpty junk
  let ms ← mistStringReserve junk ms (configSize file).toNat
  return ⟨ms, file, 0, []⟩

/-- What is done with a line that was read to `ms`. -/
def LoadState.define (junk : Nat → UInt8) (size : Int) (s : LoadState) (ms : CMistString)
    (fs : Str) : Except ConfigStop LoadState := do
  let lineNo := nextLine s.lineNo
  match ← access (mistCfgGetLineType ms) with
  | (.mltSingle, some name, ms) =>
    if name = [] then .error (.failed .mistSyntaxError errEmptyName lineNo)
    else return s.add name (← mistCfgGetSinglelineValue junk name fs size ms lineNo)
  | (.mltMulti, some name, ms) =>
    if name = [] then .error (.failed .mistSyntaxError errEmptyName lineNo)
    else return s.add name (← mistCfgGetMultilineValue name fs size ms lineNo)
  | (.mltNoEq, _, _) => .error (.failed .mistSyntaxError errEqExpected lineNo)
  | (.mltBadMulti, _, _) => .error (.failed .mistSyntaxError errBadCharsAfterMLBegin lineNo)
  -- comments and blank lines are ignored
  | (_, _, ms) => return ⟨ms, fs, lineNo, s.sm⟩

/-- The body of the loop in `mist_load_config_file`. -/
def LoadState.round (junk : Nat → UInt8) (size : Int) (s : LoadState) :
    Except ConfigStop LoadState := do
  let ms ← access (mistStringReset s.ms)
  match ← access (fgets ms.buf ms.str (intOfLong size) s.fs) with
  | none => return { s with ms := ms }
  | some (buf, fs) => s.define junk size ⟨buf, ms.str⟩ fs

variable {buf : List UInt8} {i : Nat}

namespace CMistString

variable {ms : CMistString}

theorem Valid.copy_eq (h : ms.Valid) : ms.copy = .ok ms.text := by
  rw [CMistString.copy, h.strlen_eq]
  exact congrArg Except.ok (range_of_at ((List.prefix_append _ [0]).trans h.at_text))

theorem valid_of_at {t : Str} (h : t ++ [0] <+: buf.drop i)
    (ht : 0 ∉ t) (hsize : buf.length < sizeMax) :
    Valid ⟨buf, i⟩ ∧ CMistString.text ⟨buf, i⟩ = t :=
  ⟨⟨zero_mem_of_at h, hsize⟩, text_of_at h ht⟩

end CMistString

@[simp] theorem isSpace_iff {c : UInt8} : isSpace c = true ↔ c = 32 ∨ c = 9 ∨ c = 10 ∨ c = 13 := by
  simp [isSpace, wspace]

section Trimming

-- The text has the parts `l`, `m` and `r`, and the outer ones are white space.
variable {ms : CMistString} {l m r : Str}

theorem findFirst_parts (hat : l ++ m ++ r <+: buf.drop i)
    (hi : i ≤ buf.length) (hl : ∀ c ∈ l, isSpace c = true) (hm : Trim.Trimmed isSpace m)
    (hne : m ≠ []) :
    findFirst (fun c => !isSpace c) buf i (i + (l ++ m ++ r).length) = .ok (i + l.length) := by
  rw [List.append_assoc] at hat ⊢
  refine findFirst_of_at hat hi (fun c hc => by rw [hl c hc]; rfl) fun c hc => ?_
  rw [List.head?_append_of_ne_nil _ hne] at hc
  rw [hm.head c hc]
  rfl

theorem findLast_parts (hat : l ++ m ++ r <+: buf.drop i)
    (hi : i ≤ buf.length) (hr : ∀ c ∈ r, isSpace c = true) (hm : Trim.Trimmed isSpace m)
    (hne : m ≠ []) :
    findLast (fun c => !isSpace c) buf i (i + (l ++ m ++ r).length) =
      .ok (i + l.length + (m.length - 1)) := by
  obtain ⟨m', c, rfl⟩ : ∃ m' c, m = m' ++ [c] :=
    ⟨m.dropLast, m.getLast hne, (List.dropLast_concat_getLast hne).symm⟩
  have hc : isSpace c = false := hm.last c (by simp)
  have hsplit : l ++ (m' ++ [c]) ++ r = l ++ m' ++ c :: r := by simp
  have hpos : i + l.length + ((m' ++ [c]).length - 1) = i + (l ++ m').length := by
    rw [List.length_append, List.length_append, List.length_singleton]
    omega
  rw [hsplit] at hat
  rw [hsplit, hpos]
  exact findLast_of_at hat hi (by rw [hc]; rfl) fun d hd => by rw [hr d hd]; rfl

theorem mistStringTrim_blank (h : ms.Valid) (hall : ∀ c ∈ ms.text, isSpace c = true) :
    ∃ buf, mistStringTrim ms = .ok ⟨buf, ms.str⟩ ∧ [0] <+: buf.drop ms.str ∧
      buf.length = ms.buf.length := by
  have hlength := h.length_text
  have hstr : (ms.buf.take ms.str).length = ms.str := by
    rw [List.length_take]
    omega
  rw [mistStringTrim, h.assertInside_eq, h.strlen_eq]
  by_cases hempty : ms.text.length = 0
  · refine ⟨ms.buf, ?_, ?_, rfl⟩
    · simp only [bind, Except.bind, if_pos hempty]
      rfl
    · have hat := h.at_text
      rwa [List.eq_nil_of_length_eq_zero hempty] at hat
  · have hfirst := findFirst_of_none (p := fun c => !isSpace c)
      ((List.prefix_append _ [0]).trans h.at_text) (by omega) fun c hc => by rw [hall c hc]; rfl
    obtain ⟨buf, hstore, hwritten, hbuf⟩ := store_of_isPrefix (List.take_prefix ms.str ms.buf)
      (by omega) 0
    have hwritten' := at_of_isPrefix hwritten
    rw [hstr] at hstore hwritten'
    refine ⟨buf, ?_, hwritten', hbuf⟩
    simp only [bind, Except.bind, if_neg hempty, hfirst, if_true, hstore]
    rfl

theorem mistStringTrim_parts (h : ms.Valid) (htext : ms.text = l ++ m ++ r)
    (hl : ∀ c ∈ l, isSpace c = true) (hr : ∀ c ∈ r, isSpace c = true)
    (hm : Trim.Trimmed isSpace m) (hne : m ≠ []) :
    ∃ buf, mistStringTrim ms = .ok ⟨buf, ms.str + l.length⟩ ∧
      m ++ [0] <+: buf.drop (ms.str + l.length) ∧ buf.length = ms.buf.length := by
  have hlength := h.length_text
  have hat := h.at_text
  have hmpos := List.length_pos_iff.mpr hne
  rw [mistStringTrim, h.assertInside_eq, h.strlen_eq]
  rw [htext] at hat hlength ⊢
  have hat' := (List.prefix_append _ [0]).trans hat
  have hi : ms.str ≤ ms.buf.length := by omega
  have hfirst := findFirst_parts hat' hi hl hm hne
  have hlast := findLast_parts hat' hi hr hm hne
  have htotal : (l ++ m ++ r).length = l.length + m.length + r.length := by
    rw [List.length_append, List.length_append]
  rw [htotal] at hlength hfirst hlast ⊢
  -- the zero is written behind the last character that stays
  have hkept : ms.buf.take ms.str ++ (l ++ m) <+: ms.buf :=
    prefix_of_at ((List.prefix_append _ r).trans hat')
  have hend : (ms.buf.take ms.str ++ (l ++ m)).length =
      ms.str + l.length + (m.length - 1) + 1 := by
    rw [List.length_append, List.length_append, List.length_take]
    omega
  obtain ⟨buf, hstore, hwritten, hbuf⟩ := store_of_isPrefix hkept (by omega) 0
  rw [hend] at hstore
  refine ⟨buf, ?_, ?_, hbuf⟩
  · have hpos : ¬ l.length + m.length + r.length = 0 := by omega
    have hfirstne : ¬ ms.str + l.length = ms.str + (l.length + m.length + r.length) := by omega
    have hlastne : ms.str + l.length + (m.length - 1) ≠
        ms.str + (l.length + m.length + r.length) := by omega
    have hassert : ms.str + l.length + (m.length - 1) + 1 < ms.buf.length ∧
        ms.str + l.length < ms.str + l.length + (m.length - 1) + 1 := by omega
    simp only [bind, Except.bind, if_neg hpos, hfirst, if_neg hfirstne, hlast, if_pos hlastne,
      assert_of hassert, hstore]
    rfl
  · have hstart : (ms.buf.take ms.str ++ l).length = ms.str + l.length := by
      rw [List.length_append, List.length_take]
      omega
    rw [← hstart]
    refine at_of_isPrefix ?_
    simpa only [List.append_assoc] using hwritten

theorem mistStringTrim_text (h : ms.Valid) :
    ∃ ms', mistStringTrim ms = .ok ms' ∧ ms'.Valid ∧ ms'.text = stringTrim ms.text ∧
      ms'.buf.length = ms.buf.length ∧ ms.str ≤ ms'.str ∧
      ms'.str + ms'.text.length ≤ ms.str + ms.text.length := by
  obtain ⟨l, r, hl, hr, htext⟩ := Trim.exists_eq_append_trim (p := isSpace) ms.text
  have hm : Trim.Trimmed isSpace (stringTrim ms.text) := Trim.trimmed_trim ms.text
  change ms.text = l ++ stringTrim ms.text ++ r at htext
  by_cases hne : stringTrim ms.text = []
  · have hall := Trim.trim_eq_nil_iff.mp hne
    obtain ⟨buf, hrun, hat, hbuf⟩ := mistStringTrim_blank h hall
    obtain ⟨hvalid, htext'⟩ := CMistString.valid_of_at (t := []) hat (by simp) (hbuf ▸ h.size)
    refine ⟨_, hrun, hvalid, htext'.trans hne.symm, hbuf, le_rfl, ?_⟩
    rw [htext']
    simp
  · obtain ⟨buf, hrun, hat, hbuf⟩ := mistStringTrim_parts h htext hl hr hm hne
    have hzero : 0 ∉ stringTrim ms.text := by
      intro hmem
      refine ms.zero_notMem_text ?_
      rw [htext]
      simp [hmem]
    obtain ⟨hvalid, htext'⟩ := CMistString.valid_of_at hat hzero (hbuf ▸ h.size)
    refine ⟨_, hrun, hvalid, htext', hbuf, Nat.le_add_right _ _, ?_⟩
    rw [htext']
    have hlength := congrArg List.length htext
    simp only [List.length_append] at hlength
    dsimp only
    omega

end Trimming

/-- What is in front of a value: a name and "=", and spaces and tabs around the name. -/
structure DefinitionHead where
  lead : Str
  name : Str
  gap : Str
  lead_blank : ∀ c ∈ lead, c = 32 ∨ c = 9
  name_ne : name ≠ []
  name_chars : ∀ c ∈ name, c ≠ 32 ∧ c ≠ 9 ∧ c ≠ 61 ∧ c ≠ 0 ∧ c ≠ 10
  name_head : ∀ c, name.head? = some c → c ≠ 35 ∧ isSpace c = false
  gap_blank : ∀ c ∈ gap, c = 32 ∨ c = 9

namespace DefinitionHead

def text (d : DefinitionHead) : Str :=
  d.lead ++ (d.name ++ (d.gap ++ [61]))

theorem text_ne (d : DefinitionHead) : d.text ≠ [] := by
  simp [text]

end DefinitionHead

theorem DefinitionHead.chars (d : DefinitionHead) : 0 ∉ d.text ∧ 10 ∉ d.text := by
  have hblank : ∀ t : Str, (∀ c ∈ t, c = 32 ∨ c = 9) → 0 ∉ t ∧ 10 ∉ t := by
    intro t ht
    exact ⟨fun hmem => absurd (ht 0 hmem) (by decide), fun hmem => absurd (ht 10 hmem) (by decide)⟩
  have hlead := hblank d.lead d.lead_blank
  have hgap := hblank d.gap d.gap_blank
  have hname : 0 ∉ d.name ∧ 10 ∉ d.name :=
    ⟨fun hmem => (d.name_chars 0 hmem).2.2.2.1 rfl, fun hmem => (d.name_chars 10 hmem).2.2.2.2 rfl⟩
  constructor
  · simp [DefinitionHead.text, hlead.1, hgap.1, hname.1]
  · simp [DefinitionHead.text, hlead.2, hgap.2, hname.2]

theorem isSpace_of_blank {c : UInt8} (h : c = 32 ∨ c = 9) : isSpace c = true :=
  isSpace_iff.mpr (h.elim Or.inl fun h => Or.inr (Or.inl h))

theorem exists_eq_rdropWhile (after : Str) :
    ∃ r, (∀ c ∈ r, isSpace c = true) ∧ after = after.rdropWhile isSpace ++ r :=
  ⟨after.rtakeWhile isSpace, fun _ => List.mem_rtakeWhile_imp,
    List.rdropWhile_append_rtakeWhile.symm⟩

theorem dropWhile_rdropWhile (after : Str) :
    (after.rdropWhile isSpace).dropWhile isSpace = stringTrim after := by
  obtain ⟨r, hr, hafter⟩ := exists_eq_rdropWhile after
  generalize hv : after.rdropWhile isSpace = v at hafter
  have hlast : ∀ c, v.getLast? = some c → isSpace c = false := by
    intro c hc
    rw [← hv] at hc
    exact Trim.last_rdropWhile hc
  have hsplit := List.takeWhile_append_dropWhile (p := isSpace) (l := v)
  have htrimmed : Trim.Trimmed isSpace (v.dropWhile isSpace) := by
    refine ⟨fun c => Trim.head_dropWhile, fun c hc => hlast c ?_⟩
    rw [← hsplit, List.getLast?_append, hc]
    rfl
  have htrim : stringTrim after = Trim.trim isSpace (v.dropWhile isSpace) := by
    rw [hafter]
    nth_rewrite 1 [← hsplit]
    exact Trim.trim_append (fun c => List.mem_takeWhile_imp) hr
  rw [htrim, Trim.trim_of_trimmed htrimmed]

section LineType

variable {ms : CMistString} {d : DefinitionHead} {after : Str}

theorem stringTrim_line (d : DefinitionHead) (after : Str) :
    stringTrim (d.text ++ after) =
      d.name ++ (d.gap ++ 61 :: after.rdropWhile isSpace) := by
  obtain ⟨r, hr, hafter⟩ := exists_eq_rdropWhile after
  have htrimmed : Trim.Trimmed isSpace (d.name ++ (d.gap ++ 61 :: after.rdropWhile isSpace)) := by
    constructor
    · intro c hc
      rw [List.head?_append_of_ne_nil _ d.name_ne] at hc
      exact (d.name_head c hc).2
    · intro c hc
      rw [← List.append_assoc, List.getLast?_append, List.getLast?_cons] at hc
      cases hv : (after.rdropWhile isSpace).getLast? with
      | none =>
        rw [hv] at hc
        cases hc
        rfl
      | some e =>
        rw [hv] at hc
        cases hc
        exact Trim.last_rdropWhile hv
  have hline : d.text ++ after =
      d.lead ++ (d.name ++ (d.gap ++ 61 :: after.rdropWhile isSpace)) ++ r := by
    rw [DefinitionHead.text]
    nth_rewrite 1 [hafter]
    simp
  rw [hline]
  exact (Trim.trim_append (fun c hc => isSpace_of_blank (d.lead_blank c hc)) hr).trans
    (Trim.trim_of_trimmed htrimmed)

theorem mistCfgGetLineType_eq (h : ms.Valid) (htext : ms.text = d.text ++ after) :
    ∃ ms', ms'.Valid ∧ ms'.text = d.name ++ (d.gap ++ 61 :: after.rdropWhile isSpace) ∧
      ms'.buf.length = ms.buf.length ∧ ms'.str + ms'.text.length ≤ ms.str + ms.text.length ∧
      mistCfgGetLineType ms = mistCfgGetValueType ms' d.name
        (ms'.str + d.name.length + d.gap.length) (ms'.str + ms'.text.length) := by
  obtain ⟨ms', hrun, hms', htext', hbuf, -, hle⟩ := mistStringTrim_text h
  rw [htext, stringTrim_line] at htext'
  refine ⟨ms', hms', htext', hbuf, hle, ?_⟩
  have hat := (List.prefix_append _ [0]).trans hms'.at_text
  have hlength := hms'.length_text
  have hstrlen := hms'.strlen_eq
  rw [htext'] at hat hlength hstrlen ⊢
  generalize after.rdropWhile isSpace = v at hat hlength hstrlen htext' ⊢
  simp only [List.length_append, List.length_cons] at hlength
  obtain ⟨c, name, hname⟩ := List.exists_cons_of_ne_nil d.name_ne
  have hload : load ms'.buf ms'.str = .ok c := by
    rw [hname] at hat
    exact load_of_at hat
  have hc35 : c ≠ 35 := (d.name_head c (by rw [hname]; rfl)).1
  have hc0 : c ≠ 0 := (d.name_chars c (by rw [hname]; simp)).2.2.2.1
  have hnameEnd : findFirst (fun c => [32, 9, 61].contains c) ms'.buf ms'.str
      (ms'.str + (d.name ++ (d.gap ++ 61 :: v)).length) = .ok (ms'.str + d.name.length) := by
    refine findFirst_of_at hat (by omega) (fun c hc => ?_) (fun c hc => ?_)
    · obtain ⟨h32, h9, h61, -⟩ := d.name_chars c hc
      simp [h32, h9, h61]
    · cases hgap : d.gap with
      | nil =>
        rw [hgap] at hc
        cases hc
        rfl
      | cons e gap =>
        rw [hgap] at hc
        cases hc
        rcases d.gap_blank c (by rw [hgap]; simp) with rfl | rfl <;> rfl
  have hatGap := at_append hat
  have hpos : findFirst (fun c => !isSpace c) ms'.buf (ms'.str + d.name.length)
      (ms'.str + (d.name ++ (d.gap ++ 61 :: v)).length) =
        .ok (ms'.str + d.name.length + d.gap.length) := by
    rw [List.length_append, ← Nat.add_assoc]
    refine findFirst_of_at hatGap (by omega) (fun c hc => ?_) (fun c hc => ?_)
    · rw [isSpace_of_blank (d.gap_blank c hc)]
      rfl
    · cases hc
      rfl
  have hrange : range ms'.buf ms'.str (ms'.str + d.name.length) = d.name :=
    range_of_at ((List.prefix_append _ _).trans hat)
  have heq : load ms'.buf (ms'.str + d.name.length + d.gap.length) = .ok 61 :=
    load_of_at (at_append hatGap)
  rw [mistCfgGetLineType, hrun]
  simp only [bind, Except.bind, hload, if_neg hc35, if_neg hc0, hstrlen, hnameEnd, hpos, heq,
    ne_eq, not_true_eq_false, if_false, hrange]

theorem mistCfgGetLineType_single (h : ms.Valid) (htext : ms.text = d.text ++ after)
    (hafter : ¬ [62, 62] <+: after) :
    ∃ ms', mistCfgGetLineType ms = .ok (.mltSingle, some d.name, ms') ∧ ms'.Valid ∧
      ms'.text = stringTrim after ∧ ms'.buf.length = ms.buf.length ∧
      ms'.str + ms'.text.length ≤ ms.str + ms.text.length := by
  obtain ⟨ms', hms', htext', hbuf, hle, hrun⟩ := mistCfgGetLineType_eq h htext
  have hv : ¬ [62, 62] <+: after.rdropWhile isSpace :=
    fun hpre => hafter (hpre.trans (List.rdropWhile_prefix isSpace _))
  have hvalue := dropWhile_rdropWhile after
  have hat := hms'.at_text
  have hzero := ms'.zero_notMem_text
  have hlength := hms'.length_text
  rw [htext'] at hat hzero hlength hle hrun
  generalize after.rdropWhile isSpace = v at hat hzero hlength hle hrun hv hvalue
  rw [List.append_assoc, List.append_assoc] at hat
  have hpos := at_append (at_append hat)
  have hafterEq := at_cons hpos
  simp only [List.length_append, List.length_cons] at hlength hle hrun
  have hzero' : 0 ∉ 61 :: v := fun hmem => hzero (by simp only [List.mem_append, hmem, or_true])
  have hsplit := List.takeWhile_append_dropWhile (p := isSpace) (l := v)
  have hnot : ¬ (text ms'.buf (ms'.str + d.name.length + d.gap.length)).take mlBeg.length =
      mlBeg := by
    rw [text_of_at hpos hzero']
    intro hbeg
    have hpre : mlBeg <+: 61 :: v := hbeg ▸ List.take_prefix _ _
    exact hv (List.cons_prefix_cons.mp hpre).2
  have hfirst : findFirst (fun c => !isSpace c) ms'.buf
      (ms'.str + d.name.length + d.gap.length + 1)
      (ms'.str + (d.name.length + (d.gap.length + (v.length + 1)))) =
        .ok (ms'.str + d.name.length + d.gap.length + 1 + (v.takeWhile isSpace).length) := by
    have hend : ms'.str + (d.name.length + (d.gap.length + (v.length + 1))) =
        ms'.str + d.name.length + d.gap.length + 1 +
          (v.takeWhile isSpace ++ v.dropWhile isSpace).length := by
      rw [hsplit]
      omega
    rw [hend]
    refine findFirst_of_at ?_ (by omega) (fun c hc => ?_) (fun c hc => ?_)
    · rw [hsplit]
      exact (List.prefix_append v [0]).trans hafterEq
    · rw [List.mem_takeWhile_imp hc]
      rfl
    · rw [Trim.head_dropWhile hc]
      rfl
  have hrest : stringTrim after ++ [0] <+: ms'.buf.drop
      (ms'.str + d.name.length + d.gap.length + 1 + (v.takeWhile isSpace).length) := by
    refine at_append ?_
    rw [← hvalue, ← List.append_assoc, hsplit]
    exact hafterEq
  have hzero'' : 0 ∉ stringTrim after := by
    intro hmem
    rw [← hvalue] at hmem
    exact hzero' (List.mem_cons_of_mem 61 ((List.dropWhile_suffix isSpace).subset hmem))
  obtain ⟨hvalid, hvtext⟩ := CMistString.valid_of_at hrest hzero'' hms'.size
  refine ⟨_, ?_, hvalid, hvtext, hbuf, ?_⟩
  · rw [hrun, mistCfgGetValueType]
    simp only [bind, Except.bind, if_neg hnot, hfirst]
    rfl
  · have hlen := congrArg List.length hsplit
    rw [List.length_append] at hlen
    rw [hvtext, ← hvalue]
    dsimp only
    omega

theorem mistCfgGetLineType_multi (h : ms.Valid) {r : Str}
    (htext : ms.text = d.text ++ ([62, 62] ++ r)) (hr : ∀ c ∈ r, isSpace c = true) :
    ∃ ms', mistCfgGetLineType ms = .ok (.mltMulti, some d.name, ms') ∧ ms'.str = 0 ∧
      ms'.buf.length = ms.buf.length := by
  obtain ⟨ms', hms', htext', hbuf, hle, hrun⟩ := mistCfgGetLineType_eq h htext
  have hv : ([62, 62] ++ r).rdropWhile isSpace = [62, 62] := by
    rw [Trim.rdropWhile_append_of_all hr]
    rfl
  have hat := hms'.at_text
  have hzero := ms'.zero_notMem_text
  have hlength := hms'.length_text
  rw [htext', hv] at hat hzero hlength
  rw [htext', hv] at hrun
  rw [List.append_assoc, List.append_assoc] at hat
  have hpos := at_append (at_append hat)
  simp only [List.length_append, List.length_cons, List.length_nil] at hlength hrun
  have hbeg : (text ms'.buf (ms'.str + d.name.length + d.gap.length)).take mlBeg.length =
      mlBeg := by
    rw [text_of_at (t := mlBeg) hpos (by decide)]
    rfl
  have hfirst : findFirst (fun c => !isSpace c) ms'.buf
      (ms'.str + d.name.length + d.gap.length + mlBeg.length)
      (ms'.str + (d.name.length + (d.gap.length + (0 + 1 + 1 + 1)))) =
        .ok (ms'.str + (d.name.length + (d.gap.length + (0 + 1 + 1 + 1)))) := by
    have hmlBeg : mlBeg.length = 3 := rfl
    have hstop : ms'.str + (d.name.length + (d.gap.length + (0 + 1 + 1 + 1))) =
        ms'.str + d.name.length + d.gap.length + mlBeg.length + ([] ++ [] : Str).length := by
      rw [hmlBeg, List.append_nil, List.length_nil]
      omega
    rw [hstop]
    refine findFirst_of_at List.nil_prefix ?_ (fun c hc => ?_) (fun c hc => ?_)
    · rw [hmlBeg]
      omega
    · cases hc
    · cases hc
  have hroom : 0 < ms'.buf.length := by omega
  refine ⟨⟨ms'.buf.set 0 0, 0⟩, ?_, rfl, List.length_set.trans hbuf⟩
  rw [hrun, mistCfgGetValueType]
  simp only [bind, Except.bind, if_pos hbeg, hfirst, ne_eq, not_true_eq_false, if_false,
    mistStringReset, hms'.assertInside_eq, store, if_pos hroom]
  rfl

end LineType

/-- The buffer is large enough for the whole file.  Each of the lines that were read had a
character. -/
structure LoadState.Ready (size : Int) (s : LoadState) : Prop where
  inside : s.ms.str < s.ms.buf.length
  buf_size : size < s.ms.buf.length
  buf_max : s.ms.buf.length < sizeMax
  fits : (s.lineNo + s.fs.length : Int) + 2 ≤ size

theorem intOfLong_eq {n : Int} (hpos : 0 ≤ n) (hn : n < 2 ^ 31) : intOfLong n = n := by
  rw [intOfLong]
  exact Int.bmod_eq_of_le (by omega) (by omega)

theorem stringTrim_append_newline {line tail : Str} (htail : tail = [] ∨ tail.head? = some 10) :
    stringTrim (line ++ tail.take 1) = stringTrim line := by
  have hspace : ∀ c ∈ tail.take 1, isSpace c = true := by
    intro c hc
    cases tail with
    | nil => cases hc
    | cons d tail =>
      have hd : d = 10 := by simpa using htail
      have hcd : c = d := by simpa using hc
      rw [hcd, hd]
      rfl
  exact Trim.trim_append (l := []) (by simp) hspace

theorem zero_notMem_append_newline {line tail : Str} (hline : 0 ∉ line)
    (htail : tail = [] ∨ tail.head? = some 10) : 0 ∉ line ++ tail.take 1 := by
  rw [List.mem_append, not_or]
  refine ⟨hline, fun hmem => ?_⟩
  cases tail with
  | nil => cases hmem
  | cons c tail =>
    have hc : c = 10 := by simpa using htail
    rw [hc] at hmem
    simp at hmem

namespace LoadState

variable {size : Int} {s : LoadState} {line tail : Str}

theorem Ready.nextLine_eq (hs : s.Ready size) (hsmall : size < 2 ^ 31) :
    nextLine s.lineNo = s.lineNo + 1 := by
  have hfits := hs.fits
  exact Nat.mod_eq_of_lt (by omega)

theorem Ready.reset_eq (hs : s.Ready size) : mistStringReset s.ms = .ok ⟨s.ms.buf.set 0 0, 0⟩ := by
  have hinside := hs.inside
  have hpos : 0 < s.ms.buf.length := by omega
  rw [mistStringReset, CMistString.assertInside, assert_of hinside, store, if_pos hpos]
  rfl

theorem start_ready (junk : Nat → UInt8) (file : Str) (hfile : file.length + 3 < sizeMax) :
    ∃ s, start junk file = .ok s ∧ s.fs = file ∧ s.sm = [] ∧ s.Ready (configSize file) := by
  have hempty : ([] : Str) ++ [0] <+: ([0] : Str).drop 0 := List.prefix_rfl
  obtain ⟨new, size0, hcreate, hnew, -, hnew'⟩ :=
    mistStringCreate_valid junk hempty (by simp) (by decide)
  have hsize : (configSize file).toNat = file.length + 2 := by
    rw [configSize]
    omega
  obtain ⟨ms, size, hreserve, hwrites, hroom, hmax⟩ :=
    mistStringReserve_writes junk hnew hnew' (show file.length + 2 + 1 < sizeMax from hfile)
  refine ⟨⟨ms, file, 0, []⟩, ?_, rfl, rfl, ?_, ?_, ?_, ?_⟩
  · rw [start]
    simp only [bind, Except.bind, mistStringCreateEmpty, hcreate, hsize, hreserve]
    rfl
  · rw [hwrites.str_eq, hwrites.size_eq, List.length_nil]
    omega
  · rw [hwrites.size_eq, configSize]
    omega
  · rw [hwrites.size_eq]
    exact hmax
  · rw [configSize]
    dsimp only
    omega

theorem nextLine_iterate {lineNo n : Nat} (h : lineNo + n < 2 ^ 32) :
    nextLine^[n] lineNo = lineNo + n := by
  induction n generalizing lineNo with
  | zero => rfl
  | succ n ih =>
    have hnext : nextLine lineNo = lineNo + 1 := Nat.mod_eq_of_lt (by omega)
    rw [Function.iterate_succ_apply, hnext, ih (by omega)]
    omega

theorem Ready.add (hs : s.Ready size) (hsmall : size < 2 ^ 31) (name : Str) {r : ValueRead}
    {n : Nat} (hlineNo : r.lineNo = nextLine^[n] (nextLine s.lineNo))
    (hn : n + 1 + r.fs.length ≤ s.fs.length) (hinside : r.ms.str < r.ms.buf.length)
    (hbuf : r.ms.buf.length = s.ms.buf.length) : (s.add name r).Ready size := by
  have hfits := hs.fits
  have hlines : nextLine^[n + 1] s.lineNo = s.lineNo + (n + 1) := nextLine_iterate (by omega)
  rw [Function.iterate_succ_apply] at hlines
  refine ⟨hinside, ?_, ?_, ?_⟩
  · rw [LoadState.add, hbuf]
    exact hs.buf_size
  · rw [LoadState.add, hbuf]
    exact hs.buf_max
  · rw [LoadState.add, hlineNo, hlines]
    dsimp only
    omega

theorem Ready.round_eq (junk : Nat → UInt8) (hs : s.Ready size) (hsmall : size < 2 ^ 31)
    (hfs : s.fs = line ++ tail) (hzero : 0 ∉ line) (hline : 10 ∉ line)
    (htail : tail = [] ∨ tail.head? = some 10) (hfile : line ++ tail ≠ []) :
    ∃ ms, ms.Valid ∧ ms.str = 0 ∧ ms.text = line ++ tail.take 1 ∧
      ms.buf.length = s.ms.buf.length ∧
      s.round junk size = s.define junk size ms (tail.drop 1) := by
  have hfits := hs.fits
  have hbuf := hs.buf_size
  rw [hfs, List.length_append] at hfits
  have hset : (s.ms.buf.set 0 0).length = s.ms.buf.length := List.length_set
  obtain ⟨buf, hgets, hread, hlength⟩ := fgets_of_isPrefix (n := size)
    (List.nil_prefix (l := s.ms.buf.set 0 0)) hline htail hfile (by omega)
    (by rw [hset, List.length_nil]; omega)
  have hat : (line ++ tail.take 1) ++ [0] <+: buf.drop 0 := by
    rw [List.drop_zero]
    exact hread
  obtain ⟨hvalid, htext⟩ := CMistString.valid_of_at hat
    (zero_notMem_append_newline hzero htail) (by rw [hlength, hset]; exact hs.buf_max)
  refine ⟨⟨buf, 0⟩, hvalid, rfl, htext, hlength.trans hset, ?_⟩
  rw [List.length_nil] at hgets
  have hsize : (0 : Int) ≤ size := by omega
  rw [round, hs.reset_eq]
  simp only [bind, Except.bind, access, intOfLong_eq hsize hsmall, hfs, hgets]

end LoadState

end MistEngine
end KedrAux
