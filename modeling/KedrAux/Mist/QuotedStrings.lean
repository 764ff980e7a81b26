import KedrAux.Mist.Scanner

/-!
# Texts in quotes

How a text that is written in quotes with the escape sequences of the `README` is read.
The scanner collects it in one match for each escape sequence and for each longest run of
other characters.  The runs can be split: reading their characters one by one gives the same.
-/

namespace KedrAux
namespace Mist

open MistPattern (isPlain)

section Plain

variable {c : Char} (stack : List StartCondition) (acc : Str) (pos : Position) (s : Str)

@[simp] theorem isPlain_iff : isPlain c = true ↔ c ≠ '"' ∧ c ≠ '\\' ∧ c ≠ '\n' := by
  simp only [isPlain, Bool.and_eq_true, decide_eq_true_eq]
  exact and_assoc

theorem longest_plain (state : ScanState) (hc : isPlain c = true) :
    Flex.longest (stringRules state) (c :: s) =
      some ((c :: s.takeWhile isPlain).length, fun yytext => .skip (state.append yytext)) := by
  obtain ⟨hquote, hbackslash, hnewline⟩ := isPlain_iff.mp hc
  have hlit : ∀ d text, c ≠ d → (MistPattern.lit (d :: text)).matchLength (c :: s) = none :=
    fun d text hd => Flex.Pattern.matchLength_of_first (decide_eq_false hd)
  have hsome : (MistPattern.some isPlain).matchLength (c :: s) =
      some (c :: s.takeWhile isPlain).length := by
    simp [MistPattern.some, Flex.Pattern.matchLength, Flex.matchHead, hc, Nat.add_comm]
  simp only [stringRules, Flex.longest, hlit _ _ hquote, hlit _ _ hbackslash, hlit _ _ hnewline,
    hsome]

theorem scan_plain_run (hc : isPlain c = true) :
    scan (inQuotes stack acc) pos (c :: s) =
      scan (inQuotes stack (acc ++ c :: s.takeWhile isPlain))
        (pos.advance (c :: s.takeWhile isPlain)) (s.dropWhile isPlain) := by
  have hlongest : Flex.longest (mistScanner.rules (inQuotes stack acc)) (c :: s) =
      some ((c :: s.takeWhile isPlain).length,
        fun yytext => .skip ((inQuotes stack acc).append yytext)) :=
    longest_plain s (inQuotes stack acc) hc
  have hscan := mistScanner.scan_skip hlongest rfl pos
  have hsplit : c :: s = (c :: s.takeWhile isPlain) ++ s.dropWhile isPlain := by
    rw [List.cons_append, List.takeWhile_append_dropWhile]
  have htake : (c :: s).take (c :: s.takeWhile isPlain).length = c :: s.takeWhile isPlain := by
    conv_lhs => rw [hsplit]
    rw [List.take_left]
  have hdrop : (c :: s).drop (c :: s.takeWhile isPlain).length = s.dropWhile isPlain := by
    conv_lhs => rw [hsplit]
    rw [List.drop_left]
  rw [htake, hdrop] at hscan
  exact hscan

theorem Position.advance_plain
    {d : Char} (hc : isPlain c = true) (hd : isPlain d = true) (text : Str) :
    (pos.advance [c]).advance (d :: text) = pos.advance (c :: d :: text) := by
  have hc' := (isPlain_iff.mp hc).2.2
  have hd' := (isPlain_iff.mp hd).2.2
  simp [Position.advance, hc', hd', Nat.add_assoc, Nat.add_comm]

theorem scan_plain (hc : isPlain c = true) :
    scan (inQuotes stack acc) pos (c :: s) =
      scan (inQuotes stack (acc ++ [c])) (pos.advance [c]) s := by
  rw [scan_plain_run stack acc pos s hc]
  cases s with
  | nil => rfl
  | cons d s =>
    cases hd : isPlain d with
    | false =>
      rw [List.takeWhile_cons_of_neg (by rw [hd]; exact Bool.false_ne_true),
        List.dropWhile_cons_of_neg (by rw [hd]; exact Bool.false_ne_true)]
    | true =>
      rw [scan_plain_run stack (acc ++ [c]) (pos.advance [c]) s hd,
        List.takeWhile_cons_of_pos hd, List.dropWhile_cons_of_pos hd,
        Position.advance_plain pos hc hd, List.append_assoc, List.singleton_append]

end Plain

/-- A character with the escape sequence of the `README` for it. -/
def escaped (c : Char) : Str :=
  if c = '\n' then ['\\', 'n']
  else if c = '\t' then ['\\', 't']
  else if c = '"' then ['\\', '"']
  else if c = '\\' then ['\\', '\\']
  else [c]

def quoted (s : Str) : Str :=
  '"' :: (s.flatMap escaped ++ ['"'])

/-- What is read for a character that is written with `escaped`. -/
def scannedChar (c : Char) : Str :=
  if c = '\t' then ['\\', 't'] else [c]

theorem scan_escaped
    (stack : List StartCondition) (acc : Str) (pos : Position) (c : Char) (s : Str) :
    ∃ pos', scan (inQuotes stack acc) pos (escaped c ++ s) =
      scan (inQuotes stack (acc ++ scannedChar c)) pos' s := by
  unfold escaped scannedChar
  split_ifs with hn ht ht hq hb
  · exact absurd (hn.symm.trans ht) (by decide)
  · refine ⟨_, (scan_escape stack acc pos s ?_)⟩
    rw [hn]
    decide
  · refine ⟨(pos.advance ['\\']).advance ['t'], ?_⟩
    have hplain := scan_plain stack (acc ++ ['\\']) (pos.advance ['\\']) s
      (show isPlain 't' = true by decide)
    rw [List.append_assoc, List.singleton_append] at hplain
    exact (scan_backslash_t stack acc pos s).trans hplain
  · refine ⟨_, (scan_escape stack acc pos s ?_)⟩
    rw [hq]
    decide
  · refine ⟨_, (scan_escape stack acc pos s ?_)⟩
    rw [hb]
    decide
  · exact ⟨_, scan_plain stack acc pos s (isPlain_iff.mpr ⟨hq, hb, hn⟩)⟩

theorem scan_flatMap_escaped
    (stack : List StartCondition) (acc : Str) (pos : Position) (s rest : Str) :
    ∃ pos', scan (inQuotes stack acc) pos (s.flatMap escaped ++ rest) =
      scan (inQuotes stack (acc ++ s.flatMap scannedChar)) pos' rest := by
  induction s generalizing acc pos with
  | nil => exact ⟨pos, by rw [List.flatMap_nil, List.flatMap_nil, List.append_nil]; rfl⟩
  | cons c s ih =>
    obtain ⟨pos1, hc⟩ := scan_escaped stack acc pos c (s.flatMap escaped ++ rest)
    obtain ⟨pos2, hs⟩ := ih (acc ++ scannedChar c) pos1
    refine ⟨pos2, ?_⟩
    rw [List.flatMap_cons, List.append_assoc, hc, hs, List.flatMap_cons, List.append_assoc]

/-- A text in quotes is one token, and the scanner goes on in the directive. -/
theorem scan_quoted (stack : List StartCondition) (acc : Str) (pos : Position) (s rest : Str) :
    ∃ pos' pos'', scan ⟨.directive, stack, acc⟩ pos (quoted s ++ rest) =
      .token pos' (.text (s.flatMap scannedChar)) ⟨.directive, stack, s.flatMap scannedChar⟩
        (scan ⟨.directive, stack, s.flatMap scannedChar⟩ pos'' rest) := by
  obtain ⟨pos', hs⟩ := scan_flatMap_escaped stack [] (pos.advance ['"']) s ('"' :: rest)
  refine ⟨pos', pos'.advance ['"'], ?_⟩
  rw [quoted, List.cons_append, List.append_assoc, List.singleton_append, scan_opening, hs,
    scan_closing, List.nil_append]

theorem flatMap_scannedChar_eq {s : Str} (h : '\t' ∉ s) : s.flatMap scannedChar = s := by
  induction s with
  | nil => rfl
  | cons c s ih =>
    rw [List.mem_cons, not_or] at h
    rw [List.flatMap_cons, ih h.2, scannedChar, if_neg (Ne.symm h.1), List.singleton_append]

theorem not_mem_flatMap_scannedChar (s : Str) : '\t' ∉ s.flatMap scannedChar := by
  intro h
  obtain ⟨c, -, hc⟩ := List.mem_flatMap.mp h
  unfold scannedChar at hc
  split_ifs at hc with ht
  · exact absurd hc (by decide)
  · exact ht (List.mem_singleton.mp hc).symm

/-- In every directive, the quoted text is scanned as one token with this text, and the
scanner goes on in the directive. -/
def ScannedAsText (s : Str) : Prop :=
  ∀ (stack : List StartCondition) (acc : Str) (pos : Position) (rest : Str),
    ∃ pos' pos'' state, scan ⟨.directive, stack, acc⟩ pos (quoted s ++ rest) =
        .token pos' (.text s) state (scan state pos'' rest) ∧
      state.start = .directive ∧ state.stack = stack

/-- The texts that can be written in quotes are those without a tab: its escape sequence
has no rule. -/
theorem scannedAsText_iff
    (s : Str) :
    ScannedAsText s ↔ '\t' ∉ s := by
  constructor
  · intro h
    obtain ⟨pos', pos'', state, hscan, -, -⟩ := h [] [] ⟨1, 1⟩ []
    obtain ⟨pos1, pos2, hscan'⟩ := scan_quoted [] [] ⟨1, 1⟩ s []
    have htoken := hscan.symm.trans hscan'
    have htext : s = s.flatMap scannedChar := by
      injection htoken with _ ht
      injection ht
    rw [htext]
    exact not_mem_flatMap_scannedChar s
  · intro h stack acc pos rest
    obtain ⟨pos', pos'', hscan⟩ := scan_quoted stack acc pos s rest
    rw [flatMap_scannedChar_eq h] at hscan
    exact ⟨pos', pos'', _, hscan, rfl, rfl⟩

/-- A single tab is scanned as a backslash and a letter. -/
theorem not_scannedAsText_tab :
    ¬ ∀ s, ScannedAsText s := by
  intro h
  obtain ⟨pos', pos'', state, hscan, -, -⟩ := h ['\t'] [] [] ⟨1, 1⟩ []
  have hscan' : scan ⟨.directive, [], []⟩ ⟨1, 1⟩ (quoted ['\t'] ++ []) =
      .token ⟨1, 4⟩ (.text ['\\', 't']) ⟨.directive, [], ['\\', 't']⟩
        (.eof ⟨1, 5⟩ ⟨.directive, [], ['\\', 't']⟩) := rfl
  rw [hscan'] at hscan
  injection hscan with _ ht
  injection ht with htext
  exact absurd htext (by decide)

end Mist
end KedrAux
