import KedrAux.MistEngine.ConfigFile

/-!
# Values in one line

The logical lines of a value are merged in place by `mist_cfg_get_singleline_value`: each of
them is read behind the last one, where its backslash was.
-/

namespace KedrAux
namespace MistEngine

open CharBuffer
open MistEngine.Parser (wspace isSpace stringTrim)

/-- A logical line that is continued in the next one: its backslash may be followed by white
space. -/
structure ContinuedLine where
  content : Str
  pad : Str
  content_chars : 0 ∉ content ∧ 10 ∉ content
  pad_space : ∀ c ∈ pad, isSpace c = true ∧ c ≠ 10

def ContinuedLine.text (l : ContinuedLine) : Str :=
  l.content ++ 92 :: l.pad

/-- The last logical line does not end in a backslash. -/
structure LastLine where
  content : Str
  content_chars : 0 ∉ content ∧ 10 ∉ content
  not_continued : (stringTrim content).getLast? ≠ some 92

structure LogicalLines where
  continued : List ContinuedLine
  last : LastLine

namespace LogicalLines

/-- The lines in a file, up to the end of the last one. -/
def text (ls : LogicalLines) : Str :=
  (ls.continued.flatMap fun l => l.text ++ [10]) ++ ls.last.content

def trimmed (ls : LogicalLines) : List Str :=
  ls.continued.map (fun l => stringTrim l.content) ++ [stringTrim ls.last.content]

/-- The lines that are not blank, with single spaces between them. -/
def joined (ls : LogicalLines) : Str :=
  List.intercalate [32] (ls.trimmed.filter fun t => t ≠ [])

end LogicalLines

/-- What becomes of the trimmed lines: each of them but the last is followed by a space, and the
last space is removed when there is nothing behind it. -/
def mergedValue : List Str → Str
  | [] => []
  | [t] => t
  | t :: ts => if ts = [[]] then t else t ++ 32 :: mergedValue ts

/-- The lines as they are written, without the backslashes. -/
def LogicalLines.contents (ls : LogicalLines) : List Str :=
  ls.continued.map (fun l => l.content) ++ [ls.last.content]

/-- One of the lines is split at a space between two characters that are not white space. -/
def LogicalLines.Splits (ls ls' : LogicalLines) : Prop :=
  ∃ (a b : List Str) (x y : Str) (c e : UInt8), isSpace c = false ∧ isSpace e = false ∧
    ls.contents = a ++ (x ++ [c] ++ 32 :: e :: y) :: b ∧
    ls'.contents = a ++ (x ++ [c]) :: (e :: y) :: b

theorem ContinuedLine.zero_notMem (l : ContinuedLine) : 0 ∉ l.text := by
  rw [ContinuedLine.text, List.mem_append, List.mem_cons, not_or, not_or]
  refine ⟨l.content_chars.1, by decide, fun hmem => ?_⟩
  have hspace := (l.pad_space 0 hmem).1
  cases hspace

theorem ContinuedLine.newline_notMem (l : ContinuedLine) : 10 ∉ l.text := by
  rw [ContinuedLine.text, List.mem_append, List.mem_cons, not_or, not_or]
  exact ⟨l.content_chars.2, by decide, fun hmem => (l.pad_space 10 hmem).2 rfl⟩

theorem exists_dropWhile_eq (content : Str) :
    ∃ w, (∀ c ∈ w, isSpace c = true) ∧ (stringTrim content = [] → w = []) ∧
      content.dropWhile isSpace = stringTrim content ++ w := by
  refine ⟨(content.dropWhile isSpace).rtakeWhile isSpace, fun c => List.mem_rtakeWhile_imp,
    fun hnil => ?_, List.rdropWhile_append_rtakeWhile.symm⟩
  have hall := Trim.trim_eq_nil_iff.mp hnil
  rw [List.dropWhile_eq_nil_iff.mpr hall]
  rfl

theorem ContinuedLine.stringTrim_text (l : ContinuedLine) :
    stringTrim l.text = l.content.dropWhile isSpace ++ [92] := by
  have hsplit := List.takeWhile_append_dropWhile (p := isSpace) (l := l.content)
  have htrimmed : Trim.Trimmed isSpace (l.content.dropWhile isSpace ++ [92]) := by
    constructor
    · intro c hc
      cases hw : (l.content.dropWhile isSpace).head? with
      | none =>
        rw [List.head?_append, hw] at hc
        cases hc
        rfl
      | some d =>
        rw [List.head?_append, hw] at hc
        cases hc
        exact Trim.head_dropWhile hw
    · intro c hc
      rw [List.getLast?_append] at hc
      cases hc
      rfl
  have htext : l.text =
      l.content.takeWhile isSpace ++ (l.content.dropWhile isSpace ++ [92]) ++ l.pad := by
    rw [← List.append_assoc (l.content.takeWhile isSpace), hsplit, ContinuedLine.text]
    simp
  rw [htext]
  exact (Trim.trim_append (fun c => List.mem_takeWhile_imp) fun c hc => (l.pad_space c hc).1).trans
    (Trim.trim_of_trimmed htrimmed)

/-- The values so far are written behind `before`, and then the line `cur`, whose backslash is
at `end_`; and there is room for the rest of the file. -/
structure HoldsLine (before cur : Str) (cap : Nat) (s : SingleState) : Prop where
  written : before ++ (cur ++ [0]) <+: s.buf
  beg_eq : s.beg = before.length
  end_eq : s.end_ + 1 = s.beg + cur.length
  size_eq : s.buf.length = cap
  room : (s.beg : Int) + cur.length + s.bsize ≤ cap
  fits : (s.fs.length : Int) + 2 ≤ s.bsize
  small : s.bsize < 2 ^ 31
  running : s.stopped = false

namespace HoldsLine

variable {before t w line tail : Str} {cap : Nat} {s : SingleState}

theorem findLast_eq (h : HoldsLine before (t ++ w ++ [92]) cap s)
    (ht : Trim.Trimmed isSpace t) (hw : ∀ c ∈ w, isSpace c = true) (hnil : t = [] → w = []) :
    ∃ pos, findLast (fun c => !isSpace c) s.buf s.beg s.end_ = .ok pos ∧
      (if pos ≠ s.end_ then pos + 1 else pos) = s.beg + t.length := by
  have hend : s.end_ = s.beg + (t ++ w).length := by
    have hend := h.end_eq
    have hcur : (t ++ w ++ [92]).length = (t ++ w).length + 1 := List.length_append
    omega
  have hat : t ++ w <+: s.buf.drop s.beg := by
    rw [h.beg_eq]
    refine (List.prefix_append _ [92]).trans ((List.prefix_append _ [0]).trans ?_)
    exact at_of_isPrefix h.written
  have hbeg : s.beg ≤ s.buf.length := by
    have hle := h.written.length_le
    rw [List.length_append, ← h.beg_eq] at hle
    omega
  by_cases hempty : t = []
  · subst hempty
    rw [hnil rfl] at hat hend
    refine ⟨s.beg, ?_, ?_⟩
    · rw [hend]
      exact findLast_of_none hat hbeg (by simp)
    · rw [hend]
      simp
  · obtain ⟨t', c, rfl⟩ : ∃ t' c, t = t' ++ [c] :=
      ⟨t.dropLast, t.getLast hempty, (List.dropLast_concat_getLast hempty).symm⟩
    have hc : isSpace c = false := ht.last c (by simp)
    rw [List.append_assoc, List.singleton_append] at hat hend
    refine ⟨s.beg + t'.length, ?_, ?_⟩
    · rw [hend]
      exact findLast_of_at hat hbeg (by rw [hc]; rfl) fun d hd => by rw [hw d hd]; rfl
    · have hne : s.beg + t'.length ≠ s.end_ := by
        rw [hend, List.length_append, List.length_cons]
        omega
      rw [if_pos hne, List.length_append, List.length_singleton]
      omega

theorem exists_place (junk : Nat → UInt8) (h : HoldsLine before (t ++ w ++ [92]) cap s)
    (ht : Trim.Trimmed isSpace t) (hw : ∀ c ∈ w, isSpace c = true) (hnil : t = [] → w = [])
    (hfs : s.fs = line ++ tail) (hzero : 0 ∉ line) (hline : 10 ∉ line)
    (htail : tail = [] ∨ tail.head? = some 10) (hfile : line ++ tail ≠ []) :
    ∃ buf ts, s.round junk = s.place buf (before ++ t ++ [32]).length (tail.drop 1) ts ∧
      before ++ t ++ [32] <+: buf ∧ buf.length = cap ∧ ts.Valid ∧ ts.text = stringTrim line := by
  obtain ⟨pos, hlast, hpos⟩ := h.findLast_eq ht hw hnil
  have hroom := h.room
  have hfits := h.fits
  have hsmall := h.small
  have hsize := h.size_eq
  rw [hfs, List.length_append] at hfits
  simp only [List.length_append, List.length_singleton] at hroom
  rw [h.beg_eq, ← List.length_append] at hpos
  -- the space
  have hwritten : before ++ t <+: s.buf := by
    refine (List.prefix_append _ (w ++ [92] ++ [0])).trans ?_
    simpa only [List.append_assoc] using h.written
  have hbeg := h.beg_eq
  obtain ⟨buf1, hstore, hspace, hbuf1⟩ := store_of_isPrefix hwritten (by
    rw [List.length_append]
    omega) 32
  -- the line
  have hlength : (before ++ t ++ [32]).length = (before ++ t).length + 1 := List.length_append
  have hint : intOfLong s.bsize = s.bsize := intOfLong_eq (by omega) hsmall
  obtain ⟨buf, hgets, hread, hbuf⟩ := fgets_of_isPrefix (n := s.bsize) hspace hline htail hfile
    (by omega) (by rw [hbuf1, hlength, List.length_append]; omega)
  have hnewline := zero_notMem_append_newline hzero htail
  have hcopy : (line ++ tail.take 1).length + mistInitBufferSize < sizeMax := by
    rw [List.length_append, List.length_take, mistInitBufferSize, sizeMax]
    omega
  obtain ⟨ts, size, hcreate, hts, htext, -⟩ :=
    mistStringCreate_valid junk (at_of_isPrefix hread) hnewline hcopy
  obtain ⟨ts', htrim, hts', htext', -⟩ := mistStringTrim_text hts
  rw [htext, stringTrim_append_newline htail] at htext'
  refine ⟨buf, ts', ?_, (List.prefix_append _ _).trans hread, ?_, hts', htext'⟩
  · rw [SingleState.round, hlast]
    simp only [bind, Except.bind, access, hpos, hstore, hfs, ← hlength, hint, hgets, hcreate,
      htrim]
  · rw [hbuf, hbuf1, hsize]

theorem round_of_line (junk : Nat → UInt8) (h : HoldsLine before (t ++ w ++ [92]) cap s)
    (ht : Trim.Trimmed isSpace t) (hw : ∀ c ∈ w, isSpace c = true) (hnil : t = [] → w = [])
    (hfs : s.fs = line ++ tail) (hzero : 0 ∉ line) (hline : 10 ∉ line)
    (htail : tail = [] ∨ tail.head? = some 10) (hne : stringTrim line ≠ []) :
    ∃ s', s.round junk = .ok s' ∧ HoldsLine (before ++ t ++ [32]) (stringTrim line) cap s' ∧
      s'.fs = tail.drop 1 ∧ s'.lineNo = nextLine s.lineNo := by
  have hfile : line ++ tail ≠ [] := by
    intro hempty
    rw [(List.append_eq_nil_iff.mp hempty).1] at hne
    exact hne rfl
  obtain ⟨buf, ts, hround, hbuf, hsize, hts, htext⟩ :=
    h.exists_place junk ht hw hnil hfs hzero hline htail hfile
  have hroom := h.room
  have hfits := h.fits
  have hsmall := h.small
  have hbeg := h.beg_eq
  have hlen : (stringTrim line).length ≤ line.length := by
    obtain ⟨l, r, -, -, hparts⟩ := Trim.exists_eq_append_trim (p := isSpace) line
    have hlength := congrArg List.length hparts
    simp only [List.length_append] at hlength
    change (Trim.trim isSpace line).length ≤ line.length
    omega
  have hpos := List.length_pos_iff.mpr hne
  rw [hfs, List.length_append] at hfits
  simp only [List.length_append, List.length_singleton] at hroom
  have hbefore : (before ++ t ++ [32]).length = before.length + t.length + 1 := by
    simp only [List.length_append, List.length_singleton]
  have hat := hts.at_text
  have hzero' := ts.zero_notMem_text
  have hstrlen := hts.strlen_eq
  rw [htext] at hat hzero' hstrlen
  obtain ⟨buf', hcopy, hwritten, hbuf'⟩ := strncpy_string_of_isPrefix hbuf hat hzero' (by omega)
  have hleft : ¬ s.bsize - ((stringTrim line).length : Int) < 1 := by omega
  refine ⟨⟨buf', (before ++ t ++ [32]).length,
    (before ++ t ++ [32]).length + ((stringTrim line).length - 1),
    s.bsize - (stringTrim line).length, tail.drop 1, nextLine s.lineNo, false⟩, ?_,
    ⟨hwritten, rfl, ?_, hbuf'.trans hsize, ?_, ?_, ?_, rfl⟩, rfl, rfl⟩
  · rw [hround, SingleState.place, hstrlen]
    simp only [access, bind, Except.bind, if_pos hpos, hcopy, if_neg hleft]
    rfl
  · dsimp only
    omega
  · dsimp only
    omega
  · dsimp only
    rw [List.length_drop]
    omega
  · dsimp only
    omega

theorem round_of_blank (junk : Nat → UInt8) (h : HoldsLine before (t ++ w ++ [92]) cap s)
    (ht : Trim.Trimmed isSpace t) (hw : ∀ c ∈ w, isSpace c = true) (hnil : t = [] → w = [])
    (hfs : s.fs = line ++ tail) (hzero : 0 ∉ line) (hline : 10 ∉ line)
    (htail : tail = [] ∨ tail.head? = some 10) (hfile : line ++ tail ≠ [])
    (hblank : stringTrim line = []) :
    ∃ s', s.round junk = .ok s' ∧ before ++ t ++ [0] <+: s'.buf ∧ s'.buf.length = cap ∧
      s'.fs = tail.drop 1 ∧ s'.lineNo = nextLine s.lineNo ∧ s'.stopped = true := by
  obtain ⟨buf, ts, hround, hbuf, hsize, hts, htext⟩ :=
    h.exists_place junk ht hw hnil hfs hzero hline htail hfile
  have hstrlen := hts.strlen_eq
  rw [htext, hblank] at hstrlen
  have hspace : (before ++ t ++ [32]).length = (before ++ t).length + 1 := List.length_append
  have hbefore : (before ++ t ++ [32]).length - 1 = (before ++ t).length := by omega
  have hle := hbuf.length_le
  have hroom : (before ++ t).length < buf.length := by omega
  obtain ⟨buf', hstore, hwritten, hbuf'⟩ :=
    store_of_isPrefix ((List.prefix_append _ [32]).trans hbuf) hroom 0
  refine ⟨⟨buf', (before ++ t).length, s.end_, s.bsize, tail.drop 1, nextLine s.lineNo, true⟩, ?_,
    hwritten, hbuf'.trans hsize, rfl, rfl, rfl⟩
  rw [hround, SingleState.place, hstrlen]
  simp only [access, bind, Except.bind, List.length_nil, lt_irrefl, if_false, hbefore, hstore]
  rfl

theorem more_eq {u : Str} {c : UInt8} (h : HoldsLine before (u ++ [c]) cap s) :
    s.more = .ok (decide (c = 92)) := by
  have hend : s.end_ = s.beg + u.length := by
    have hend := h.end_eq
    have hcur : (u ++ [c]).length = u.length + 1 := List.length_append
    omega
  have hat := at_of_isPrefix h.written
  rw [List.append_assoc, ← h.beg_eq] at hat
  have hload : load s.buf s.end_ = .ok c := by
    rw [hend]
    exact load_of_at (at_append hat)
  rw [SingleState.more, h.running, hload]
  rfl

end HoldsLine

theorem LogicalLines.trimmed_ne_nil (ls : LogicalLines) : ls.trimmed ≠ [] := by
  simp [LogicalLines.trimmed]

variable {t : Str} {ts : List Str}

theorem mergedValue_cons (h : ts ≠ []) :
    mergedValue (t :: ts) = if ts = [[]] then t else t ++ 32 :: mergedValue ts := by
  cases ts with
  | nil => exact absurd rfl h
  | cons u ts => rfl

section Loop

variable {cap : Nat} {tail : Str} (last : LastLine)

theorem loop_last (junk : Nat → UInt8) (htail : tail = [] ∨ tail.head? = some 10)
    (hlast : last.content ++ tail ≠ []) (l : ContinuedLine) (before : Str) (s : SingleState)
    (fuel : Nat) (h : HoldsLine before (stringTrim l.text) cap s)
    (hfs : s.fs = last.content ++ tail) :
    ∃ s', While.run (.fault .endless) SingleState.more (SingleState.round junk) (fuel + 2) s =
        .ok s' ∧
      before ++ (mergedValue [stringTrim l.content, stringTrim last.content] ++ [0]) <+: s'.buf ∧
      s'.buf.length = cap ∧ s'.fs = tail.drop 1 ∧ s'.lineNo = nextLine s.lineNo := by
  obtain ⟨w, hw, hnil, hcontent⟩ := exists_dropWhile_eq l.content
  have ht : Trim.Trimmed isSpace (stringTrim l.content) := Trim.trimmed_trim l.content
  rw [l.stringTrim_text, hcontent] at h
  have hmore := h.more_eq
  rw [mergedValue_cons (List.cons_ne_nil _ _)]
  by_cases hblank : stringTrim last.content = []
  · obtain ⟨s', hround, hwritten, hsize, hfs', hlineNo, hstopped⟩ := h.round_of_blank junk
      ht hw hnil hfs last.content_chars.1 last.content_chars.2 htail hlast hblank
    have hstop : s'.more = .ok false := by rw [SingleState.more, if_pos hstopped]
    refine ⟨s', ?_, ?_, hsize, hfs', hlineNo⟩
    · rw [While.run_of_true hmore hround, While.run_of_false hstop]
    · rwa [hblank, if_pos rfl, ← List.append_assoc]
  · obtain ⟨s', hround, hline, hfs', hlineNo⟩ := h.round_of_line junk ht hw hnil hfs
      last.content_chars.1 last.content_chars.2 htail hblank
    obtain ⟨u, c, huc⟩ : ∃ u c, stringTrim last.content = u ++ [c] :=
      ⟨_, _, (List.dropLast_concat_getLast hblank).symm⟩
    have hc : c ≠ 92 := by
      rintro rfl
      refine last.not_continued ?_
      rw [huc]
      simp
    have hstop : s'.more = .ok false := by
      rw [huc] at hline
      rw [hline.more_eq, decide_eq_false hc]
    refine ⟨s', ?_, ?_, hline.size_eq, hfs', hlineNo⟩
    · rw [While.run_of_true hmore hround, While.run_of_false hstop]
    · rw [if_neg fun heq => hblank (List.cons.inj heq).1]
      have hwritten := hline.written
      simp only [List.append_assoc] at hwritten ⊢
      exact hwritten

theorem loop_merges (junk : Nat → UInt8) (htail : tail = [] ∨ tail.head? = some 10)
    (hlast : last.content ++ tail ≠ []) (rest : List ContinuedLine) (l : ContinuedLine)
    (before : Str) (s : SingleState) (fuel : Nat)
    (h : HoldsLine before (stringTrim l.text) cap s)
    (hfs : s.fs = LogicalLines.text ⟨rest, last⟩ ++ tail) (hfuel : rest.length + 2 ≤ fuel) :
    ∃ s', While.run (.fault .endless) SingleState.more (SingleState.round junk) fuel s = .ok s' ∧
      before ++ (mergedValue (stringTrim l.content :: LogicalLines.trimmed ⟨rest, last⟩) ++ [0]) <+:
        s'.buf ∧ s'.buf.length = cap ∧ s'.fs = tail.drop 1 ∧
      s'.lineNo = nextLine^[rest.length + 1] s.lineNo := by
  induction rest generalizing l before s fuel with
  | nil =>
    obtain ⟨fuel, rfl⟩ := Nat.exists_eq_add_of_le' hfuel
    exact loop_last last junk htail hlast l before s fuel h hfs
  | cons d rest ih =>
    obtain ⟨fuel, rfl⟩ := Nat.exists_eq_add_of_le' (Nat.one_le_of_lt hfuel)
    obtain ⟨w, hw, hnil, hcontent⟩ := exists_dropWhile_eq l.content
    have ht : Trim.Trimmed isSpace (stringTrim l.content) := Trim.trimmed_trim l.content
    rw [l.stringTrim_text, hcontent] at h
    have hfs' : s.fs = d.text ++ 10 :: (LogicalLines.text ⟨rest, last⟩ ++ tail) := by
      rw [hfs, LogicalLines.text, LogicalLines.text, List.flatMap_cons]
      simp
    have hne : stringTrim d.text ≠ [] := by
      rw [d.stringTrim_text]
      simp
    obtain ⟨s', hround, hline, hrest, hlineNo⟩ := h.round_of_line junk ht hw hnil hfs'
      d.zero_notMem d.newline_notMem (Or.inr rfl) hne
    have hfuel' : rest.length + 2 ≤ fuel := by
      rw [List.length_cons] at hfuel
      omega
    obtain ⟨s'', hrun, hwritten, hsize, hend, hlineNo'⟩ := ih d _ s' fuel hline hrest hfuel'
    refine ⟨s'', (While.run_of_true h.more_eq hround fuel).trans hrun, ?_, hsize, hend,
      hlineNo'.trans (congrArg _ hlineNo)⟩
    have hts : LogicalLines.trimmed ⟨d :: rest, last⟩ ≠ [[]] := by
      intro heq
      have hlength := congrArg List.length heq
      simp [LogicalLines.trimmed] at hlength
    rw [mergedValue_cons (LogicalLines.trimmed_ne_nil _), if_neg hts]
    simp only [List.append_assoc] at hwritten ⊢
    exact hwritten

end Loop

/-- The first line of the value, and what is behind it. -/
def LogicalLines.first (ls : LogicalLines) (tail : Str) : Str × Str :=
  match ls.continued with
  | [] => (ls.last.content, tail)
  | l :: rest => (l.text, 10 :: (LogicalLines.text ⟨rest, ls.last⟩ ++ tail))

theorem zero_notMem_stringTrim (h : 0 ∉ t) : 0 ∉ stringTrim t := by
  obtain ⟨l, r, -, -, hparts⟩ := Trim.exists_eq_append_trim (p := isSpace) t
  intro hmem
  refine h ?_
  rw [hparts]
  exact List.mem_append_left _ (List.mem_append_right _ hmem)

theorem zero_notMem_mergedValue (h : ∀ t ∈ ts, 0 ∉ t) : 0 ∉ mergedValue ts := by
  induction ts with
  | nil => simp [mergedValue]
  | cons t ts ih =>
    have ht := h t List.mem_cons_self
    by_cases hts : ts = []
    · subst hts
      exact ht
    · rw [mergedValue_cons hts]
      split_ifs
      · exact ht
      · simp only [List.mem_append, List.mem_cons, not_or]
        exact ⟨ht, by decide, ih fun u hu => h u (List.mem_cons_of_mem t hu)⟩

theorem LogicalLines.zero_notMem (ls : LogicalLines) (ht : t ∈ ls.trimmed) : 0 ∉ t := by
  rw [LogicalLines.trimmed, List.mem_append, List.mem_map, List.mem_singleton] at ht
  rcases ht with ⟨l, -, rfl⟩ | rfl
  · exact zero_notMem_stringTrim l.content_chars.1
  · exact zero_notMem_stringTrim ls.last.content_chars.1

theorem LogicalLines.length_continued_le (ls : LogicalLines) :
    ls.continued.length ≤ ls.text.length := by
  obtain ⟨continued, last⟩ := ls
  induction continued with
  | nil => exact Nat.zero_le _
  | cons l rest ih =>
    simp only [LogicalLines.text, List.flatMap_cons, List.length_append, List.length_cons,
      List.length_nil] at ih ⊢
    omega

section Value

variable {name fs tail : Str} {bsize : Int} {val : CMistString} {lineNo : Nat}

theorem holdsLine_start (lineNo : Nat) (hval : val.Valid) (hne : val.text ≠ [])
    (hbsize : bsize ≤ val.buf.length)
    (hsmall : bsize < 2 ^ 31)
    (hfits : (val.str + val.text.length + fs.length : Int) + 2 ≤ bsize) :
    HoldsLine (val.buf.take val.str) val.text val.buf.length
      (SingleState.start val val.text.length (bsize - (val.str + val.text.length)) fs lineNo) := by
  have hlength := hval.length_text
  have hpos := List.length_pos_iff.mpr hne
  refine ⟨prefix_of_at hval.at_text, ?_, ?_, rfl, ?_, ?_, ?_, rfl⟩ <;>
    dsimp only [SingleState.start]
  · rw [List.length_take]
    omega
  all_goals omega

theorem mistCfgGetSinglelineValue_loop (junk : Nat → UInt8) {v : Str} {s' : SingleState}
    (hval : val.Valid) (hne : val.text ≠ []) (hname : name ≠ []) (hlineNo : 1 ≤ lineNo)
    (hfits : (val.str + val.text.length + fs.length : Int) + 2 ≤ bsize)
    (hrun : While.run (.fault .endless) SingleState.more (SingleState.round junk) (fs.length + 2)
      (SingleState.start val val.text.length (bsize - (val.str + val.text.length)) fs lineNo) =
        .ok s')
    (hwritten : val.buf.take val.str ++ (v ++ [0]) <+: s'.buf) (hzero : 0 ∉ v)
    (hsize : s'.buf.length = val.buf.length) :
    mistCfgGetSinglelineValue junk name fs bsize val lineNo =
      .ok ⟨⟨s'.buf, val.str⟩, s'.fs, s'.lineNo, v⟩ := by
  have hassert : name ≠ [] ∧ 1 ≤ bsize ∧ 1 ≤ lineNo := ⟨hname, by omega, hlineNo⟩
  have hleft : 1 ≤ bsize - (val.str + val.text.length : Int) := by omega
  have hlength := hval.length_text
  have hlen : val.text.length ≠ 0 := fun h => hne (List.eq_nil_of_length_eq_zero h)
  have hat := at_of_isPrefix hwritten
  rw [List.length_take, Nat.min_eq_left (by omega)] at hat
  obtain ⟨hvalid, htext⟩ := CMistString.valid_of_at hat hzero (hsize ▸ hval.size)
  rw [mistCfgGetSinglelineValue, assert_of hassert, hval.strlen_eq]
  simp only [bind, Except.bind, access, if_neg hlen, assert_of hleft, hrun, hvalid.copy_eq, htext]
  rfl

theorem mistCfgGetSinglelineValue_merges (junk : Nat → UInt8) (ls : LogicalLines)
    (hval : val.Valid) (htext : val.text = stringTrim (ls.first tail).1)
    (htail : tail = [] ∨ tail.head? = some 10)
    (hlast : ls.continued = [] ∨ ls.last.content ++ tail ≠ [])
    (hname : name ≠ []) (hlineNo : 1 ≤ lineNo) (hbsize : bsize ≤ val.buf.length)
    (hsmall : bsize < 2 ^ 31) (hfs : fs = (ls.first tail).2.drop 1)
    (hfits : (val.str + val.text.length + fs.length : Int) + 2 ≤ bsize) :
    ∃ r, mistCfgGetSinglelineValue junk name fs bsize val lineNo = .ok r ∧
      r.value = mergedValue ls.trimmed ∧ r.fs = tail.drop 1 ∧
      r.lineNo = nextLine^[ls.continued.length] lineNo ∧ r.ms.str = val.str ∧
      r.ms.buf.length = val.buf.length := by
  have hzero : 0 ∉ mergedValue ls.trimmed := zero_notMem_mergedValue fun t => ls.zero_notMem
  have hassert : name ≠ [] ∧ 1 ≤ bsize ∧ 1 ≤ lineNo := ⟨hname, by omega, hlineNo⟩
  obtain ⟨continued, last⟩ := ls
  cases continued with
  | nil =>
    change val.text = stringTrim last.content at htext
    change fs = tail.drop 1 at hfs
    change 0 ∉ stringTrim last.content at hzero
    by_cases hempty : val.text = []
    · refine ⟨⟨val, fs, lineNo, val.text⟩, ?_, htext, hfs, rfl, rfl, rfl⟩
      rw [mistCfgGetSinglelineValue, assert_of hassert, hval.strlen_eq, hempty]
      simp only [bind, Except.bind, access, List.length_nil, if_true, hval.copy_eq, hempty]
      rfl
    · have hstart := holdsLine_start lineNo hval hempty hbsize hsmall hfits
      obtain ⟨u, c, huc⟩ : ∃ u c, val.text = u ++ [c] :=
        ⟨_, _, (List.dropLast_concat_getLast hempty).symm⟩
      have hc : c ≠ 92 := by
        rintro rfl
        refine last.not_continued ?_
        rw [← htext, huc]
        simp
      have hstop : ∀ before cap s, HoldsLine before val.text cap s → s.more = .ok false := by
        intro before cap s hs
        rw [huc] at hs
        rw [hs.more_eq, decide_eq_false hc]
      have hwritten : val.buf.take val.str ++ (stringTrim last.content ++ [0]) <+: val.buf := by
        rw [← htext]
        exact hstart.written
      exact ⟨_, mistCfgGetSinglelineValue_loop junk hval hempty hname hlineNo hfits
        (While.run_of_false (hstop _ _ _ hstart) _) hwritten hzero rfl, rfl, hfs, rfl, rfl, rfl⟩
  | cons l rest =>
    change val.text = stringTrim l.text at htext
    change fs = LogicalLines.text ⟨rest, last⟩ ++ tail at hfs
    have hne : val.text ≠ [] := by
      rw [htext, l.stringTrim_text]
      simp
    have hstart := holdsLine_start lineNo hval hne hbsize hsmall hfits
    have hfuel : rest.length + 2 ≤ fs.length + 2 := by
      have hle := LogicalLines.length_continued_le ⟨rest, last⟩
      rw [hfs, List.length_append]
      dsimp only at hle
      omega
    rw [htext] at hstart
    obtain ⟨s', hrun, hwritten, hsize, hend, hline⟩ :=
      loop_merges last junk htail (hlast.resolve_left (List.cons_ne_nil l rest)) rest l _ _ _ hstart
        hfs hfuel
    rw [← htext] at hrun
    exact ⟨_, mistCfgGetSinglelineValue_loop junk hval hne hname hlineNo hfits hrun hwritten hzero
      hsize, rfl, hend, hline, rfl, hsize⟩

end Value

namespace LogicalLines

variable (ls : LogicalLines) {tail : Str}

@[simp] theorem first_append (tail : Str) : (ls.first tail).1 ++ (ls.first tail).2 = ls.text ++ tail := by
  obtain ⟨continued, last⟩ := ls
  cases continued with
  | nil => rfl
  | cons l rest =>
    simp [first, LogicalLines.text]

theorem first_isPrefix (tail : Str) : (ls.first tail).1 <+: ls.text := by
  obtain ⟨continued, last⟩ := ls
  cases continued with
  | nil => exact List.prefix_rfl
  | cons l rest =>
    refine ⟨10 :: LogicalLines.text ⟨rest, last⟩, ?_⟩
    simp [first, LogicalLines.text]

theorem first_tail (htail : tail = [] ∨ tail.head? = some 10) :
    (ls.first tail).2 = [] ∨ (ls.first tail).2.head? = some 10 := by
  obtain ⟨continued, last⟩ := ls
  cases continued with
  | nil => exact htail
  | cons l rest => exact Or.inr rfl

theorem first_chars (tail : Str) : 0 ∉ (ls.first tail).1 ∧ 10 ∉ (ls.first tail).1 := by
  obtain ⟨continued, last⟩ := ls
  cases continued with
  | nil => exact last.content_chars
  | cons l rest => exact ⟨l.zero_notMem, l.newline_notMem⟩

end LogicalLines

theorem round_merges (junk : Nat → UInt8) {size : Int} {s : LoadState} (hs : s.Ready size)
    (hsmall : size < 2 ^ 31) (d : DefinitionHead) (ls : LogicalLines) {tail : Str}
    (htail : tail = [] ∨ tail.head? = some 10)
    (hlast : ls.continued = [] ∨ ls.last.content ++ tail ≠ [])
    (hvalue : ¬ [62, 62] <+: ls.text) (hfs : s.fs = d.text ++ (ls.text ++ tail)) :
    ∃ s', s.round junk size = .ok s' ∧ s'.sm = s.sm ++ [(d.name, mergedValue ls.trimmed)] ∧
      s'.fs = tail.drop 1 ∧ s'.Ready size := by
  have hchars := d.chars
  have hfirst := ls.first_chars tail
  have htail' := ls.first_tail htail
  have hfs' : s.fs = (d.text ++ (ls.first tail).1) ++ (ls.first tail).2 := by
    rw [hfs, ← ls.first_append, List.append_assoc]
  have hfile : (d.text ++ (ls.first tail).1) ++ (ls.first tail).2 ≠ [] := by
    simp [DefinitionHead.text]
  obtain ⟨ms, hms, hstr, htext, hbuf, hround⟩ := hs.round_eq junk hsmall hfs'
    (by simp [hchars.1, hfirst.1]) (by simp [hchars.2, hfirst.2]) htail' hfile
  rw [List.append_assoc] at htext
  have hsingle : ¬ [62, 62] <+: (ls.first tail).1 ++ (ls.first tail).2.take 1 := by
    intro hpre
    refine hvalue (List.IsPrefix.trans ?_ (ls.first_isPrefix tail))
    rcases htail' with hnil | hhead
    · rw [hnil] at hpre
      simpa using hpre
    · obtain ⟨rest, hrest⟩ := List.head?_eq_some_iff.mp hhead
      rw [hrest] at hpre
      exact Substring.isPrefix_of_isPrefix_append_cons (by decide) hpre
  obtain ⟨ms', htype, hms', htext', hbuf', hle⟩ :=
    mistCfgGetLineType_single hms htext hsingle
  rw [stringTrim_append_newline htail'] at htext'
  have hfits := hs.fits
  have hbufsize := hs.buf_size
  rw [hfs', List.length_append] at hfits
  have hlength := congrArg List.length htext
  simp only [List.length_append, List.length_take] at hlength hfits
  have hlineNo : 1 ≤ nextLine s.lineNo := by
    rw [hs.nextLine_eq hsmall]
    omega
  have hroom : size ≤ ms'.buf.length := by omega
  have hleft : (ms'.str + ms'.text.length + ((ls.first tail).2.drop 1).length : Int) + 2 ≤
      size := by
    rw [List.length_drop]
    omega
  obtain ⟨r, hread, hrvalue, hrfs, hrline, hrstr, hrbuf⟩ := mistCfgGetSinglelineValue_merges junk ls
    hms' htext' htail hlast d.name_ne hlineNo hroom hsmall rfl hleft
  refine ⟨s.add d.name r, ?_, ?_, hrfs, ?_⟩
  · rw [hround, LoadState.define, htype]
    simp only [access, bind, Except.bind, if_neg d.name_ne, hread]
    rfl
  · rw [LoadState.add, hrvalue]
  · have hlines := ls.length_continued_le
    have hvalid := hms'.length_text
    have htotal := congrArg List.length hfs
    have hone : 1 ≤ d.text.length := List.length_pos_iff.mpr d.text_ne
    simp only [List.length_append] at htotal
    refine hs.add hsmall d.name hrline ?_ ?_ (hrbuf.trans (hbuf'.trans hbuf))
    · rw [hrfs, List.length_drop]
      omega
    · rw [hrstr, hrbuf]
      omega

theorem intercalate_space_cons (h : ts ≠ []) :
    List.intercalate [32] (t :: ts) = t ++ 32 :: List.intercalate [32] ts := by
  rw [List.intercalate_cons_of_ne_nil h, List.append_assoc, List.singleton_append]

theorem mergedValue_eq_intercalate (h : ∀ t ∈ ts, t ≠ []) (u : Str) :
    mergedValue (ts ++ [u]) = List.intercalate [32] ((ts ++ [u]).filter fun t => t ≠ []) := by
  induction ts with
  | nil => by_cases hu : u = [] <;> simp [hu, mergedValue]
  | cons t ts ih =>
    have ht := h t List.mem_cons_self
    have hts : ∀ t ∈ ts, t ≠ [] := fun t' ht' => h t' (List.mem_cons_of_mem t ht')
    rw [List.cons_append, mergedValue_cons (by simp), List.filter_cons_of_pos (by simpa using ht),
      ih hts]
    by_cases hblank : ts ++ [u] = [[]]
    · rw [if_pos hblank, hblank]
      simp
    · have hne : (ts ++ [u]).filter (fun t => t ≠ []) ≠ [] := by
        intro hnil
        rw [List.filter_eq_nil_iff] at hnil
        cases ts with
        | nil =>
          have hu := hnil u (by simp)
          simp only [decide_eq_true_iff, not_not] at hu
          exact hblank (by rw [hu]; rfl)
        | cons t' ts => exact hnil t' (by simp) (decide_eq_true (hts t' List.mem_cons_self))
      rw [if_neg hblank, intercalate_space_cons hne]

theorem LogicalLines.trimmed_eq (ls : LogicalLines) : ls.trimmed = ls.contents.map stringTrim := by
  simp [LogicalLines.trimmed, LogicalLines.contents]

theorem exists_stringTrim_split (x y : Str) {c e : UInt8} (hc : isSpace c = false)
    (he : isSpace e = false) :
    ∃ p q, p ≠ [] ∧ q ≠ [] ∧ stringTrim (x ++ [c]) = p ∧ stringTrim (e :: y) = q ∧
      stringTrim (x ++ [c] ++ 32 :: e :: y) = p ++ 32 :: q := by
  obtain ⟨l, r, hl, hr, hx⟩ := Trim.exists_eq_append_trim (p := isSpace) (x ++ [c])
  obtain ⟨l', r', hl', hr', hy⟩ := Trim.exists_eq_append_trim (p := isSpace) (e :: y)
  have hp : Trim.Trimmed isSpace (stringTrim (x ++ [c])) := Trim.trimmed_trim (x ++ [c])
  have hq : Trim.Trimmed isSpace (stringTrim (e :: y)) := Trim.trimmed_trim (e :: y)
  have hpne : stringTrim (x ++ [c]) ≠ [] := by
    intro hnil
    rw [Trim.trim_eq_nil_iff.mp hnil c (by simp)] at hc
    cases hc
  have hqne : stringTrim (e :: y) ≠ [] := by
    intro hnil
    rw [Trim.trim_eq_nil_iff.mp hnil e List.mem_cons_self] at he
    cases he
  have hrnil : r = [] := by
    by_contra hne
    have hlast := congrArg List.getLast? hx
    rw [List.getLast?_append_of_ne_nil _ hne, List.getLast?_eq_some_getLast hne,
      List.getLast?_append, List.getLast?_singleton] at hlast
    have hcr : c = r.getLast hne := Option.some.inj hlast
    rw [hcr, hr _ (List.getLast_mem hne)] at hc
    cases hc
  have hlnil : l' = [] := by
    by_contra hne
    have hhead := congrArg List.head? hy
    rw [List.append_assoc, List.head?_append_of_ne_nil _ hne, List.head?_eq_some_head hne] at hhead
    rw [Option.some.inj hhead, hl' _ (List.head_mem hne)] at he
    cases he
  refine ⟨_, _, hpne, hqne, rfl, rfl, ?_⟩
  change x ++ [c] = l ++ stringTrim (x ++ [c]) ++ r at hx
  change e :: y = l' ++ stringTrim (e :: y) ++ r' at hy
  generalize stringTrim (x ++ [c]) = p at hx hp hpne ⊢
  generalize stringTrim (e :: y) = q at hy hq hqne ⊢
  rw [hrnil, List.append_nil] at hx
  rw [hlnil, List.nil_append] at hy
  have htrimmed : Trim.Trimmed isSpace (p ++ 32 :: q) := by
    constructor
    · intro a ha
      rw [List.head?_append_of_ne_nil _ hpne] at ha
      exact hp.head a ha
    · intro a ha
      rw [List.getLast?_append_cons, List.getLast?_cons_of_ne_nil hqne] at ha
      exact hq.last a ha
  have hparts : x ++ [c] ++ 32 :: e :: y = l ++ (p ++ 32 :: q) ++ r' := by
    rw [hx, hy]
    simp
  rw [hparts]
  exact (Trim.trim_append hl hr').trans (Trim.trim_of_trimmed htrimmed)

theorem intercalate_split (a b : List Str) (p q : Str) :
    List.intercalate [32] (a ++ (p ++ 32 :: q) :: b) =
      List.intercalate [32] (a ++ p :: q :: b) := by
  induction a with
  | nil =>
    rw [List.nil_append, List.nil_append, intercalate_space_cons (List.cons_ne_nil q b)]
    cases b with
    | nil => simp
    | cons t b =>
      rw [intercalate_space_cons (List.cons_ne_nil t b), intercalate_space_cons (List.cons_ne_nil t b),
        List.append_assoc, List.cons_append]
  | cons t a ih =>
    rw [List.cons_append, List.cons_append, intercalate_space_cons (by simp),
      intercalate_space_cons (by simp),
      ih]

theorem LogicalLines.Splits.joined_eq {ls ls' : LogicalLines} (h : ls.Splits ls') :
    ls'.joined = ls.joined := by
  obtain ⟨a, b, x, y, c, e, hc, he, hls, hls'⟩ := h
  obtain ⟨p, q, hp, hq, hpx, hqy, hpq⟩ := exists_stringTrim_split x y hc he
  have hne : p ++ 32 :: q ≠ [] := by simp
  rw [LogicalLines.joined, LogicalLines.joined, LogicalLines.trimmed_eq, LogicalLines.trimmed_eq,
    hls, hls']
  simp only [List.map_append, List.map_cons, hpx, hqy, hpq, List.filter_append]
  rw [List.filter_cons_of_pos (by simpa using hp), List.filter_cons_of_pos (by simpa using hq),
    List.filter_cons_of_pos (by simp), intercalate_split]

/-- The value of a definition, when no line of it but the last one is blank.  It stays the same
when the lines are split. -/
theorem round_joins (junk : Nat → UInt8) {size : Int} {s : LoadState} (hs : s.Ready size)
    (hsmall : size < 2 ^ 31) (d : DefinitionHead) (ls : LogicalLines) {tail : Str}
    (htail : tail = [] ∨ tail.head? = some 10)
    (hlast : ls.continued = [] ∨ ls.last.content ++ tail ≠ [])
    (hvalue : ¬ [62, 62] <+: ls.text) (hfs : s.fs = d.text ++ (ls.text ++ tail))
    (hblank : ∀ l ∈ ls.continued, stringTrim l.content ≠ []) :
    (∃ s', s.round junk size = .ok s' ∧ s'.sm = s.sm ++ [(d.name, ls.joined)] ∧
      s'.fs = tail.drop 1 ∧ s'.Ready size) ∧
    ∀ ls', ls.Splits ls' → ls'.joined = ls.joined := by
  obtain ⟨s', hrun, hsm, hrest, hbuf⟩ := round_merges junk hs hsmall d ls htail hlast hvalue hfs
  have hjoined : mergedValue ls.trimmed = ls.joined := by
    refine mergedValue_eq_intercalate (fun t ht => ?_) (stringTrim ls.last.content)
    obtain ⟨l, hl, rfl⟩ := List.mem_map.mp ht
    exact hblank l hl
  rw [hjoined] at hsm
  exact ⟨⟨s', hrun, hsm, hrest, hbuf⟩, fun ls' hsplit => hsplit.joined_eq⟩

section Runs

/-- A reader in front of a file, with a buffer of 32 characters. -/
def exampleState (fs : Str) : LoadState :=
  ⟨⟨List.replicate 32 0, 0⟩, fs, 0, []⟩

/-- "n=a \\" and "b". -/
theorem round_joins_twoLines :
    ∃ s', (exampleState [110, 61, 97, 32, 92, 10, 98, 10]).round (fun _ => 0) 20 = .ok s' ∧
      s'.sm = [([110], [97, 32, 98])] ∧ s'.fs = [] := by
  let d : DefinitionHead :=
    ⟨[], [110], [], by simp, by simp, by simp, by simp; decide, by simp⟩
  let l : ContinuedLine := ⟨[97, 32], [], by decide, by simp⟩
  let last : LastLine := ⟨[98], by decide, by decide⟩
  have hready : (exampleState [110, 61, 97, 32, 92, 10, 98, 10]).Ready 20 :=
    ⟨by decide, by decide, by decide, by decide⟩
  obtain ⟨⟨s', hrun, hsm, hfs, -⟩, -⟩ := round_joins (fun _ => 0) hready (by decide) d ⟨[l], last⟩
    (show ([10] : Str) = [] ∨ ([10] : Str).head? = some 10 from Or.inr rfl) (.inr (by simp))
    (by decide) rfl (by simp [l]; decide)
  exact ⟨s', hrun, hsm, hfs⟩

/-- A lone backslash leaves a space.  A split at one of two spaces, or at a tab, changes the value:
the parts are trimmed.  A file of two gibibytes is not read. -/
theorem round_joins_false :
    (((exampleState [110, 61, 92, 10, 97, 10]).round (fun _ => 0) 20).map LoadState.sm =
      .ok [([110], [32, 97])]) ∧
    (((exampleState [110, 61, 97, 32, 32, 98, 10]).round (fun _ => 0) 20).map LoadState.sm =
      .ok [([110], [97, 32, 32, 98])]) ∧
    (((exampleState [110, 61, 97, 92, 10, 32, 98, 10]).round (fun _ => 0) 20).map LoadState.sm =
      .ok [([110], [97, 32, 98])]) ∧
    (∀ s : LoadState, s.ms.str < s.ms.buf.length →
      (s.round (fun _ => 0) (2 ^ 31)).map LoadState.sm = .ok s.sm) := by
  refine ⟨by decide +kernel, by decide +kernel, by decide +kernel, fun s hs => ?_⟩
  have hpos : 0 < s.ms.buf.length := by omega
  have hint : intOfLong (2 ^ 31) ≤ 0 := by decide
  rw [LoadState.round, mistStringReset, CMistString.assertInside, assert_of hs, store, if_pos hpos]
  simp only [bind, Except.bind, access, fgets, if_pos (Or.inl hint)]
  rfl

end Runs

end MistEngine
end KedrAux
