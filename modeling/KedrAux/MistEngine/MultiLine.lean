import KedrAux.MistEngine.ConfigFile

/-!
# Values in several lines

The lines up to the end marker are read one behind the other, with their newlines.  At the end
the whole text is trimmed, not only its last newline.
-/

namespace KedrAux
namespace MistEngine

open CharBuffer
open MistEngine.Parser (wspace isSpace stringTrim)

/-- A line of the value; with nothing but "<<" and white space it would be the end marker. -/
structure ValueLine where
  content : Str
  content_chars : 0 ∉ content ∧ 10 ∉ content
  not_marker : stringTrim content ≠ mlEnd

structure MultilineDefinition where
  head : DefinitionHead
  pad : Str
  pad_space : ∀ c ∈ pad, isSpace c = true ∧ c ≠ 10
  lines : List ValueLine
  marker : Str
  marker_chars : 10 ∉ marker
  marker_eq : stringTrim marker = mlEnd

namespace MultilineDefinition

/-- The lines of the value, each with its newline. -/
def body (m : MultilineDefinition) : Str :=
  m.lines.flatMap fun l => l.content ++ [10]

/-- The definition in a file, up to the end of its marker. -/
def text (m : MultilineDefinition) : Str :=
  m.head.text ++ ([62, 62] ++ m.pad) ++ 10 :: (m.body ++ m.marker)

/-- The lines of the value with newlines between them. -/
def joined (m : MultilineDefinition) : Str :=
  List.intercalate [10] (m.lines.map fun l => l.content)

end MultilineDefinition

/-- The positions that are computed for a line are those of an end marker if and only if there is
nothing else on the line. -/
theorem isMarker_iff {buf : List UInt8} {i : Nat} {t : Str} (hat : t ++ [0] <+: buf.drop i)
    (ht : 0 ∉ t) (hi : i ≤ buf.length) :
    ∃ posBeg posEnd : Nat, findFirst (fun c => !isSpace c) buf i (i + t.length) = .ok posBeg ∧
      findLast (fun c => !isSpace c) buf i (i + t.length) = .ok posEnd ∧
      ((posEnd - posBeg : Int) + 1 = mlEnd.length ∧
        (CharBuffer.text buf posBeg).take mlEnd.length = mlEnd ↔ stringTrim t = mlEnd) := by
  have hat' := (List.prefix_append t [0]).trans hat
  obtain ⟨l, r, hl, hr, hparts⟩ := Trim.exists_eq_append_trim (p := isSpace) t
  have hm : Trim.Trimmed isSpace (stringTrim t) := Trim.trimmed_trim t
  change t = l ++ stringTrim t ++ r at hparts
  by_cases hne : stringTrim t = []
  · have hall := Trim.trim_eq_nil_iff.mp hne
    refine ⟨i + t.length, i + t.length, ?_, ?_, ?_⟩
    · exact findFirst_of_none hat' hi fun c hc => by rw [hall c hc]; rfl
    · exact findLast_of_none hat' hi fun c hc => by rw [hall c hc]; rfl
    · rw [hne]
      simp [mlEnd]
  · have hpos := List.length_pos_iff.mpr hne
    have htext : CharBuffer.text buf (i + l.length) = stringTrim t ++ r := by
      have hzero : 0 ∉ stringTrim t ++ r := by
        intro hmem
        refine ht ?_
        rw [hparts, List.append_assoc]
        exact List.mem_append_right l hmem
      refine text_of_at (at_append ?_) hzero
      rwa [← List.append_assoc, ← List.append_assoc, ← hparts]
    rw [hparts] at hat'
    have hfirst := findFirst_parts hat' hi hl hm hne
    have hlast := findLast_parts hat' hi hr hm hne
    rw [← hparts] at hfirst hlast
    refine ⟨_, _, hfirst, hlast, ?_⟩
    have hlength : mlEnd.length = 2 := rfl
    have hdiff : (((i + l.length + ((stringTrim t).length - 1) : Nat) : Int) -
        ((i + l.length : Nat) : Int)) + 1 = (stringTrim t).length := by omega
    rw [hdiff, htext]
    constructor
    · rintro ⟨heq, htake⟩
      have hsize : (stringTrim t).length = mlEnd.length := by exact_mod_cast heq
      rwa [← hsize, List.take_left] at htake
    · intro heq
      rw [heq, List.take_left]
      exact ⟨rfl, rfl⟩

/-- The lines so far were written, and there is room for the rest of the file. -/
structure HoldsLines (written : Str) (cap : Nat) (s : MultiState) : Prop where
  prefix_buf : written <+: s.buf
  beg_eq : s.beg = written.length
  size_eq : s.buf.length = cap
  room : (s.beg : Int) + s.bsize ≤ cap
  fits : (s.fs.length : Int) + 2 ≤ s.bsize
  small : s.bsize < 2 ^ 31
  running : s.stopped = false

namespace HoldsLines

variable {written line tail : Str} {cap : Nat} {s : MultiState}

section

variable (h : HoldsLines written cap s)
include h

theorem exists_read (hfs : s.fs = line ++ tail)
    (hline : 10 ∉ line) (htail : tail = [] ∨ tail.head? = some 10) (hfile : line ++ tail ≠ []) :
    ∃ buf, fgets s.buf s.beg (intOfLong s.bsize) s.fs = .ok (some (buf, tail.drop 1)) ∧
      written ++ (line ++ tail.take 1 ++ [0]) <+: buf ∧ buf.length = cap := by
  have hroom := h.room
  have hfits := h.fits
  have hsize := h.size_eq
  rw [hfs, List.length_append] at hfits
  rw [intOfLong_eq (by omega) h.small, h.beg_eq, hfs]
  obtain ⟨buf, hgets, hread, hbuf⟩ := fgets_of_isPrefix h.prefix_buf hline htail hfile
    (n := s.bsize) (by omega) (by rw [← h.beg_eq]; omega)
  exact ⟨buf, hgets, hread, hbuf.trans hsize⟩

theorem round_eq (hfs : s.fs = line ++ tail) (hzero : 0 ∉ line)
    (hline : 10 ∉ line) (htail : tail = [] ∨ tail.head? = some 10) (hfile : line ++ tail ≠ []) :
    ∃ buf, written ++ (line ++ tail.take 1 ++ [0]) <+: buf ∧ buf.length = cap ∧
      s.round = if stringTrim line = mlEnd then do
          let buf ← access (store buf s.beg 0)
          return ⟨buf, s.beg, s.bsize, tail.drop 1, nextLine s.lineNo, true⟩
        else return ⟨buf, s.beg + (line ++ tail.take 1).length,
          s.bsize - ((line ++ tail.take 1).length : Nat), tail.drop 1, nextLine s.lineNo, false⟩ := by
  obtain ⟨buf, hgets, hread, hbuf⟩ := h.exists_read hfs hline htail hfile
  refine ⟨buf, hread, hbuf, ?_⟩
  have hzero' := zero_notMem_append_newline hzero htail
  have hat := at_of_isPrefix hread
  rw [← h.beg_eq] at hat
  have hbeg : s.beg ≤ buf.length := by
    have hle := hread.length_le
    rw [List.length_append, ← h.beg_eq] at hle
    omega
  obtain ⟨posBeg, posEnd, hfirst, hlast, hmarker⟩ := isMarker_iff hat hzero' hbeg
  rw [stringTrim_append_newline htail] at hmarker
  rw [MultiState.round]
  simp only [bind, Except.bind, access, hgets, strlen_of_at hat hzero', hfirst, hlast, hmarker]

theorem round_of_line (hfs : s.fs = line ++ 10 :: tail)
    (hzero : 0 ∉ line) (hline : 10 ∉ line) (hne : stringTrim line ≠ mlEnd) :
    ∃ s', s.round = .ok s' ∧ HoldsLines (written ++ (line ++ [10])) cap s' ∧ s'.fs = tail ∧
      s'.lineNo = nextLine s.lineNo := by
  obtain ⟨buf, hread, hbuf, hround⟩ := h.round_eq hfs hzero hline (Or.inr rfl) (by simp)
  have hroom := h.room
  have hfits := h.fits
  have hsmall := h.small
  have hbeg := h.beg_eq
  rw [if_neg hne] at hround
  change s.round = .ok ⟨buf, s.beg + (line ++ [10]).length, s.bsize - ((line ++ [10]).length : Nat),
    tail, nextLine s.lineNo, false⟩ at hround
  rw [hfs] at hfits
  simp only [List.length_append, List.length_cons] at hfits
  refine ⟨_, hround, ⟨?_, ?_, hbuf, ?_, ?_, ?_, rfl⟩, rfl, rfl⟩
  · refine (List.prefix_append _ [0]).trans ?_
    rwa [List.append_assoc]
  · simp only [List.length_append, hbeg]
  · dsimp only
    omega
  · simp only [List.length_append, List.length_cons, List.length_nil]
    omega
  · simp only [List.length_append, List.length_cons, List.length_nil]
    omega

theorem round_of_marker (hfs : s.fs = line ++ tail)
    (hzero : 0 ∉ line) (hline : 10 ∉ line) (htail : tail = [] ∨ tail.head? = some 10)
    (hmarker : stringTrim line = mlEnd) :
    ∃ s', s.round = .ok s' ∧ written ++ [0] <+: s'.buf ∧ s'.buf.length = cap ∧
      s'.fs = tail.drop 1 ∧ s'.lineNo = nextLine s.lineNo ∧ s'.stopped = true := by
  have hfile : line ++ tail ≠ [] := by
    intro hnil
    rw [(List.append_eq_nil_iff.mp hnil).1] at hmarker
    cases hmarker
  obtain ⟨buf, hread, hbuf, hround⟩ := h.round_eq hfs hzero hline htail hfile
  have hle := hread.length_le
  simp only [List.length_append, List.length_cons] at hle
  obtain ⟨buf', hstore, hwritten, hbuf'⟩ :=
    store_of_isPrefix ((List.prefix_append _ _).trans hread) (by omega) 0
  rw [← h.beg_eq] at hstore
  rw [if_pos hmarker, hstore] at hround
  exact ⟨_, hround, hwritten, hbuf'.trans hbuf, rfl, rfl, rfl⟩

theorem more_eq : s.more = .ok true := by
  rw [MultiState.more, h.running]
  rfl

end

end HoldsLines

theorem loop_reads {cap : Nat} {marker tail : Str} (hzero : 0 ∉ marker) (hmarker : 10 ∉ marker)
    (heq : stringTrim marker = mlEnd) (htail : tail = [] ∨ tail.head? = some 10)
    (lines : List ValueLine) (written : Str) (s : MultiState) (fuel : Nat)
    (h : HoldsLines written cap s)
    (hfs : s.fs = (lines.flatMap fun l => l.content ++ [10]) ++ (marker ++ tail))
    (hfuel : lines.length + 2 ≤ fuel) :
    ∃ s', While.run (.fault .endless) MultiState.more MultiState.round fuel s = .ok s' ∧
      written ++ (lines.flatMap fun l => l.content ++ [10]) ++ [0] <+: s'.buf ∧
      s'.buf.length = cap ∧ s'.fs = tail.drop 1 ∧
      s'.lineNo = nextLine^[lines.length + 1] s.lineNo := by
  induction lines generalizing written s fuel with
  | nil =>
    obtain ⟨fuel, rfl⟩ := Nat.exists_eq_add_of_le' hfuel
    change s.fs = marker ++ tail at hfs
    obtain ⟨s', hround, hwritten, hbuf, hend, hline, hstopped⟩ :=
      h.round_of_marker hfs hzero hmarker htail heq
    have hstop : s'.more = .ok false := by
      rw [MultiState.more, hstopped]
      rfl
    refine ⟨s', ?_, ?_, hbuf, hend, hline⟩
    · exact (While.run_of_true h.more_eq hround _).trans (While.run_of_false hstop _)
    · rwa [List.flatMap_nil, List.append_nil]
  | cons l lines ih =>
    obtain ⟨fuel, rfl⟩ := Nat.exists_eq_add_of_le' (Nat.one_le_of_lt hfuel)
    have hfs' : s.fs = l.content ++ 10 ::
        ((lines.flatMap fun l => l.content ++ [10]) ++ (marker ++ tail)) := by
      rw [hfs, List.flatMap_cons]
      simp
    obtain ⟨s', hround, hs', hrest, hline⟩ :=
      h.round_of_line hfs' l.content_chars.1 l.content_chars.2 l.not_marker
    have hfuel' : lines.length + 2 ≤ fuel := by
      rw [List.length_cons] at hfuel
      omega
    obtain ⟨s'', hrun, hwritten, hbuf, hend, hline'⟩ := ih _ s' fuel hs' hrest hfuel'
    refine ⟨s'', (While.run_of_true h.more_eq hround fuel).trans hrun, ?_, hbuf, hend,
      hline'.trans (congrArg _ hline)⟩
    rw [List.flatMap_cons, ← List.append_assoc]
    exact hwritten

namespace MultilineDefinition

variable (m : MultilineDefinition)

theorem zero_notMem_body : 0 ∉ m.body := by
  intro hmem
  obtain ⟨l, -, hl⟩ := List.mem_flatMap.mp hmem
  simp only [List.mem_append, List.mem_singleton] at hl
  exact hl.elim l.content_chars.1 (by decide)

theorem length_lines_le : m.lines.length ≤ m.body.length := by
  rw [body]
  induction m.lines with
  | nil => exact Nat.zero_le _
  | cons l lines ih =>
    simp only [List.flatMap_cons, List.length_append, List.length_cons, List.length_nil]
    omega

theorem zero_notMem_marker : 0 ∉ m.marker := by
  obtain ⟨l, r, hl, hr, hparts⟩ := Trim.exists_eq_append_trim (p := isSpace) m.marker
  change m.marker = l ++ stringTrim m.marker ++ r at hparts
  rw [hparts, m.marker_eq]
  simp only [List.mem_append, not_or]
  exact ⟨⟨fun hmem => absurd (hl 0 hmem) (by decide), by decide⟩,
    fun hmem => absurd (hr 0 hmem) (by decide)⟩

theorem body_eq : m.body = m.joined ++ if m.lines = [] then [] else [10] := by
  rw [body, joined]
  induction m.lines with
  | nil => rfl
  | cons l lines ih =>
    rw [List.flatMap_cons, ih, List.map_cons, if_neg (List.cons_ne_nil l lines)]
    cases lines with
    | nil => simp
    | cons l' lines => simp [List.intercalate_cons_cons]

theorem stringTrim_body : stringTrim m.body = stringTrim m.joined := by
  rw [body_eq]
  refine Trim.trim_append (l := []) (by simp) fun c hc => ?_
  split_ifs at hc
  · cases hc
  · rw [List.mem_singleton.mp hc]
    rfl

end MultilineDefinition

theorem mistCfgGetMultilineValue_trims {name tail : Str} {bsize : Int} {val : CMistString}
    {lineNo : Nat} (m : MultilineDefinition) (hstr : val.str = 0)
    (hmax : val.buf.length < sizeMax) (htail : tail = [] ∨ tail.head? = some 10)
    (hname : name ≠ []) (hlineNo : 1 ≤ lineNo) (hbsize : bsize ≤ val.buf.length)
    (hsmall : bsize < 2 ^ 31)
    (hfits : ((m.body ++ (m.marker ++ tail)).length : Int) + 2 ≤ bsize) :
    ∃ r, mistCfgGetMultilineValue name (m.body ++ (m.marker ++ tail)) bsize val lineNo = .ok r ∧
      r.value = stringTrim m.joined ∧ r.fs = tail.drop 1 ∧
      r.lineNo = nextLine^[m.lines.length + 1] lineNo ∧ r.ms.str < r.ms.buf.length ∧
      r.ms.buf.length = val.buf.length := by
  have hassert : name ≠ [] ∧ 1 ≤ bsize ∧ 1 ≤ lineNo := ⟨hname, by omega, hlineNo⟩
  have hstart : HoldsLines [] val.buf.length
      ⟨val.buf, val.str, bsize, m.body ++ (m.marker ++ tail), lineNo, false⟩ :=
    ⟨List.nil_prefix, hstr, rfl, by rw [hstr]; simpa using hbsize, hfits, hsmall, rfl⟩
  have hfuel : m.lines.length + 2 ≤ (m.body ++ (m.marker ++ tail)).length + 2 := by
    have hlines := m.length_lines_le
    rw [List.length_append]
    omega
  obtain ⟨s', hrun, hwritten, hbuf, hend, hline⟩ := loop_reads m.zero_notMem_marker m.marker_chars
    m.marker_eq htail m.lines [] _ _ hstart rfl hfuel
  have hat : m.body ++ [0] <+: s'.buf.drop val.str := by
    rw [hstr, List.drop_zero]
    exact hwritten
  obtain ⟨hvalid, htext⟩ := CMistString.valid_of_at hat m.zero_notMem_body (hbuf ▸ hmax)
  obtain ⟨ms, htrim, hms, htext', hbuf', -, -⟩ := mistStringTrim_text hvalid
  have hlength := hms.length_text
  refine ⟨⟨ms, s'.fs, s'.lineNo, ms.text⟩, ?_, ?_, hend, hline, by dsimp only; omega,
    hbuf'.trans hbuf⟩
  · rw [mistCfgGetMultilineValue, assert_of hassert]
    simp only [bind, Except.bind, access, hrun, htrim, hms.copy_eq]
    rfl
  · rw [htext', htext]
    exact m.stringTrim_body

theorem round_trims (junk : Nat → UInt8) {size : Int} {s : LoadState} (hs : s.Ready size)
    (hsmall : size < 2 ^ 31) (m : MultilineDefinition) {tail : Str}
    (htail : tail = [] ∨ tail.head? = some 10) (hfs : s.fs = m.text ++ tail) :
    ∃ s', s.round junk size = .ok s' ∧ s'.sm = s.sm ++ [(m.head.name, stringTrim m.joined)] ∧
      s'.fs = tail.drop 1 ∧ s'.lineNo = s.lineNo + 1 + (m.lines.length + 1) ∧ s'.Ready size := by
  have hpad : 0 ∉ m.pad ∧ 10 ∉ m.pad :=
    ⟨fun hmem => absurd (m.pad_space 0 hmem).1 (by decide),
      fun hmem => (m.pad_space 10 hmem).2 rfl⟩
  have hchars := m.head.chars
  have hfs' : s.fs = (m.head.text ++ ([62, 62] ++ m.pad)) ++
      10 :: (m.body ++ (m.marker ++ tail)) := by
    rw [hfs, MultilineDefinition.text]
    simp
  obtain ⟨ms, hms, hstr, htext, hbuf, hround⟩ := hs.round_eq junk hsmall hfs'
    (by simp [hchars.1, hpad.1]) (by simp [hchars.2, hpad.2]) (Or.inr rfl) (by simp)
  have hspace : ∀ c ∈ m.pad ++ [10], isSpace c = true := by
    intro c hc
    rcases List.mem_append.mp hc with hc | hc
    · exact (m.pad_space c hc).1
    · rw [List.mem_singleton.mp hc]
      rfl
  have htext' : ms.text = m.head.text ++ ([62, 62] ++ (m.pad ++ [10])) := by
    rw [htext]
    simp
  obtain ⟨ms', htype, hstr', hbuf'⟩ := mistCfgGetLineType_multi hms htext' hspace
  have hfits := hs.fits
  have hbufsize := hs.buf_size
  have hline := hs.nextLine_eq hsmall
  have hlength := congrArg List.length hfs'
  have hbodyLength : m.body.length + (m.marker.length + tail.length) =
      (m.body ++ (m.marker ++ tail)).length := by
    rw [List.length_append, List.length_append]
  rw [List.length_append, List.length_cons] at hlength
  have hfits' : ((m.body ++ (m.marker ++ tail)).length : Int) + 2 ≤ size := by omega
  have hmax : ms'.buf.length < sizeMax := by
    rw [hbuf', hbuf]
    exact hs.buf_max
  obtain ⟨r, hread, hvalue, hrfs, hrline, hrstr, hrbuf⟩ := mistCfgGetMultilineValue_trims m hstr'
    hmax htail m.head.name_ne (show 1 ≤ nextLine s.lineNo by omega)
    (show size ≤ ms'.buf.length by omega) hsmall hfits'
  have hlines := m.length_lines_le
  have hfirst : 2 ≤ (m.head.text ++ ([62, 62] ++ m.pad)).length := by
    simp only [List.length_append, List.length_cons]
    omega
  refine ⟨s.add m.head.name r, ?_, ?_, hrfs, ?_, ?_⟩
  · rw [hround, LoadState.define, htype]
    simp only [access, bind, Except.bind, if_neg m.head.name_ne, List.drop_one, List.tail_cons,
      hread]
    rfl
  · rw [LoadState.add, hvalue]
  · rw [LoadState.add, hrline, hline, LoadState.nextLine_iterate (by omega)]
  · refine hs.add hsmall m.head.name hrline ?_ hrstr (hrbuf.trans (hbuf'.trans hbuf))
    rw [hrfs, List.length_drop]
    omega

def StoresLines (junk : Nat → UInt8) (size : Int) (s : LoadState) (m : MultilineDefinition)
    (tail : Str) : Prop :=
  ∃ s', s.round junk size = .ok s' ∧ s'.sm = s.sm ++ [(m.head.name, m.joined)] ∧
    s'.fs = tail.drop 1 ∧ s'.lineNo = s.lineNo + 1 + (m.lines.length + 1)

theorem round_of_large (junk : Nat → UInt8) {size : Int} {s : LoadState} (hs : s.Ready size)
    (hlarge : 2 ^ 31 ≤ size) (hsize : size < 2 ^ 32) :
    s.round junk size = .ok { s with ms := ⟨s.ms.buf.set 0 0, 0⟩ } := by
  have hint : intOfLong size ≤ 0 := by
    rw [intOfLong, Int.bmod_def]
    norm_num
    split_ifs <;> omega
  rw [LoadState.round, hs.reset_eq]
  simp only [bind, Except.bind, access, fgets, if_pos (Or.inl hint)]
  rfl

/-- The lines are stored as they are if and only if there is no white space at the ends of the
value; and if the file is not too large. -/
theorem storesLines_iff (junk : Nat → UInt8) {size : Int} {s : LoadState} (hs : s.Ready size)
    (hsize : size < 2 ^ 32) (m : MultilineDefinition) {tail : Str}
    (htail : tail = [] ∨ tail.head? = some 10) (hfs : s.fs = m.text ++ tail) :
    StoresLines junk size s m tail ↔ size < 2 ^ 31 ∧ Trim.Trimmed isSpace m.joined := by
  by_cases hsmall : size < 2 ^ 31
  · obtain ⟨s', hrun, hsm, hrest, hline, -⟩ := round_trims junk hs hsmall m htail hfs
    rw [← Trim.trim_eq_self_iff]
    constructor
    · rintro ⟨s'', hrun', hsm', -⟩
      rw [hrun] at hrun'
      cases hrun'
      rw [hsm, List.append_cancel_left_eq, List.singleton_inj, Prod.mk.injEq] at hsm'
      exact ⟨hsmall, hsm'.2⟩
    · rintro ⟨-, htrim⟩
      change stringTrim m.joined = m.joined at htrim
      rw [htrim] at hsm
      exact ⟨s', hrun, hsm, hrest, hline⟩
  · refine iff_of_false ?_ fun h => hsmall h.1
    rintro ⟨s', hrun, hsm, -⟩
    rw [round_of_large junk hs (not_lt.mp hsmall) hsize] at hrun
    cases hrun
    simp at hsm

/-- "n=>>", "a b" and "<<". -/
theorem storesLines_iff_oneLine :
    ∃ (s : LoadState) (m : MultilineDefinition), s.fs = m.text ++ [10] ∧
      m.joined = [97, 32, 98] ∧ StoresLines (fun _ => 0) 20 s m [10] := by
  let d : DefinitionHead :=
    ⟨[], [110], [], by simp, by simp, by simp, by simp; decide, by simp⟩
  let l : ValueLine := ⟨[97, 32, 98], by decide, by decide⟩
  let m : MultilineDefinition := ⟨d, [], by simp, [l], [60, 60], by decide, by decide⟩
  let s : LoadState := ⟨⟨List.replicate 32 0, 0⟩, m.text ++ [10], 0, []⟩
  have hs : s.Ready 20 := ⟨by decide, by decide, by decide, by decide⟩
  have htrimmed : Trim.Trimmed isSpace m.joined := Trim.trim_eq_self_iff.mp (by decide)
  exact ⟨s, m, rfl, rfl, (storesLines_iff (fun _ => 0) hs (by decide) m
    (show ([10] : Str) = [] ∨ ([10] : Str).head? = some 10 from Or.inr rfl) rfl).mpr
      ⟨by decide, htrimmed⟩⟩

/-- "n=>>", " a" and "<<": the value loses its space. -/
theorem storesLines_false :
    ∃ (s : LoadState) (m : MultilineDefinition), s.fs = m.text ++ [10] ∧
      m.joined = [32, 97] ∧
      (s.round (fun _ => 0) 20).map LoadState.sm = .ok [([110], [97])] ∧
      ¬ StoresLines (fun _ => 0) 20 s m [10] := by
  let d : DefinitionHead :=
    ⟨[], [110], [], by simp, by simp, by simp, by simp; decide, by simp⟩
  let l : ValueLine := ⟨[32, 97], by decide, by decide⟩
  let m : MultilineDefinition := ⟨d, [], by simp, [l], [60, 60], by decide, by decide⟩
  let s : LoadState := ⟨⟨List.replicate 32 0, 0⟩, m.text ++ [10], 0, []⟩
  have hrun : (s.round (fun _ => 0) 20).map LoadState.sm = .ok [([110], [97])] := by
    decide +kernel
  refine ⟨s, m, rfl, rfl, hrun, ?_⟩
  rintro ⟨s', hround, hsm, -⟩
  rw [hround] at hrun
  cases hsm.symm.trans (Except.ok.inj hrun)

end MistEngine
end KedrAux
