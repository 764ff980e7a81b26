import KedrAux.TemplateConverter.ConvertedTexts
import KedrAux.Lib.DottedNames
import KedrAux.TemplateConverter.JinjaLoops
import Mathlib.Data.List.TakeWhile

/-!
# Reading of loops and joins

The blocks and variables that are written for a join are read word by word, with whatever follows
them.  Constants are read back when nothing in them is taken for an escape or for their end.
-/

namespace KedrAux
namespace TemplateConverter
namespace Loops

variable {closing s rest : CString} {ls : List Lexeme} {c : Char}

section Lexemes

def IsClosing (closing : CString) : Prop := closing = ['}', '}'] ∨ closing = ['$', '>']

/-- Whatever bound is large enough, the lexemes are read. -/
def Lexes (closing s : CString) (ls : List Lexeme) (rest : CString) : Prop :=
  ∀ n, s.length < n → readLexemes closing n s = some (ls, rest)

theorem IsClosing.isPrefixOf_eq_false (hclosing : IsClosing closing) {c : Char} {s : CString}
    (hvariable : c ≠ '}') (hblock : c ≠ '$') : closing.isPrefixOf (c :: s) = false := by
  rcases hclosing with rfl | rfl
  · simp [List.isPrefixOf, Ne.symm hvariable]
  · simp [List.isPrefixOf, Ne.symm hblock]

theorem lexes_stop (closing rest : CString) : Lexes closing (closing ++ rest) [] rest := by
  intro n hn
  obtain ⟨k, rfl⟩ : ∃ k, n = k + 1 := ⟨n - 1, by omega⟩
  have hstop : closing.isPrefixOf (closing ++ rest) = true :=
    List.isPrefixOf_iff_prefix.mpr (List.prefix_append _ _)
  rw [readLexemes, if_pos hstop, List.drop_left]

theorem lexes_space (hclosing : IsClosing closing) (h : Lexes closing s ls rest) :
    Lexes closing (' ' :: s) ls rest := by
  intro n hn
  rw [List.length_cons] at hn
  obtain ⟨k, rfl⟩ : ∃ k, n = k + 1 := ⟨n - 1, by omega⟩
  have hstop := hclosing.isPrefixOf_eq_false (c := ' ') (s := s) (by decide) (by decide)
  rw [readLexemes, if_neg (by simp [hstop]), if_pos (by rfl)]
  exact h k (by omega)

theorem lexes_cons (hclosing : IsClosing closing) {c : Char} {s s' rest : CString} {l : Lexeme}
    {ls : List Lexeme} (hvariable : c ≠ '}') (hblock : c ≠ '$') (hspace : isSpace c = false)
    (hread : readLexeme (c :: s) = some (l, s')) (hlength : s'.length ≤ s.length)
    (h : Lexes closing s' ls rest) : Lexes closing (c :: s) (l :: ls) rest := by
  intro n hn
  rw [List.length_cons] at hn
  obtain ⟨k, rfl⟩ : ∃ k, n = k + 1 := ⟨n - 1, by omega⟩
  have hstop := hclosing.isPrefixOf_eq_false (s := s) hvariable hblock
  rw [readLexemes, if_neg (by simp [hstop]), if_neg (by simp [hspace]), hread]
  simp [h k (by omega)]

variable {w : CString}

theorem isName_of_isWord (h : isWord c = true) : isName c = true := by
  rw [isWord, Bool.and_eq_true] at h
  exact h.1

def isIdentifier (w : CString) : Bool := w.all isWord && startsIdentifier w

theorem lexes_word (hclosing : IsClosing closing) (hname : isIdentifier w = true)
    (hend : ∀ c ∈ s.head?, isWord c = false) (h : Lexes closing s ls rest) :
    Lexes closing (w ++ s) (.name w :: ls) rest := by
  simp only [isIdentifier, Bool.and_eq_true, List.all_eq_true] at hname
  obtain ⟨hword, hstart⟩ := hname
  cases w with
  | nil => cases hstart
  | cons c w =>
    have hc := hword c List.mem_cons_self
    have hname := isName_of_isWord hc
    have htake : (c :: w ++ s).takeWhile isWord = c :: w := by
      cases s with
      | nil => rw [List.append_nil, List.takeWhile_eq_self_iff.mpr hword]
      | cons d s => exact takeWhile_append_stop hword (hend d rfl)
    have hdrop : (c :: w ++ s).dropWhile isWord = s := by
      cases s with
      | nil => rw [List.append_nil, List.dropWhile_eq_nil_iff.mpr hword]
      | cons d s => exact dropWhile_append_stop hword (hend d rfl)
    rw [List.cons_append] at htake hdrop ⊢
    have hread : readLexeme (c :: (w ++ s)) = some (.name (c :: w), s) := by
      rw [readLexeme, if_pos hc, htake, hdrop, if_pos (by exact hstart)]
    refine lexes_cons hclosing ?_ ?_ (isSpace_of_isName hname) hread (by simp) h
    · rintro rfl
      exact absurd hname (by decide)
    · rintro rfl
      exact absurd hname (by decide)

theorem lexes_keyword (hclosing : IsClosing closing) (hname : isIdentifier w = true)
    (h : Lexes closing s ls rest) :
    Lexes closing (w ++ ' ' :: s) (.name w :: ls) rest := by
  refine lexes_word hclosing hname (fun c hc => ?_) (lexes_space hclosing h)
  cases hc
  rfl

theorem lexes_operator (hclosing : IsClosing closing) (hc : c ∈ operators)
    (h : Lexes closing s ls rest) :
    Lexes closing (c :: s) (.operator c :: ls) rest := by
  simp only [operators, List.mem_cons, List.not_mem_nil, or_false] at hc
  rcases hc with rfl | rfl | rfl | rfl | rfl | rfl <;>
    exact lexes_cons hclosing (by decide) (by decide) rfl rfl (Nat.le_refl _) h

theorem lexes_constant (hclosing : IsClosing closing) {delimiter : Char} {body value : CString}
    (hdelimiter : delimiter = quote ∨ delimiter = doubleQuote)
    (hread : readConstant delimiter (body ++ delimiter :: s) = some (value, s))
    (h : Lexes closing s ls rest) :
    Lexes closing (delimiter :: (body ++ delimiter :: s)) (.constant value :: ls) rest := by
  have hlexeme : readLexeme (delimiter :: (body ++ delimiter :: s)) =
      some (.constant value, s) := by
    rw [readLexeme, if_neg (by rcases hdelimiter with rfl | rfl <;> decide), if_pos hdelimiter,
      hread]
    rfl
  refine lexes_cons hclosing ?_ ?_ ?_ hlexeme (by simp; omega) h <;>
    rcases hdelimiter with rfl | rfl <;> decide

end Lexemes

variable {name : CString}

section Names

/-- The lexemes of components with points between them. -/
def pathLexemes : List CString → List Lexeme
  | [] => []
  | [name] => [.name name]
  | name :: names => .name name :: .operator '.' :: pathLexemes names

theorem mem_splitOn {name component : CString} (h : isVariableName name = true)
    (hmem : component ∈ name.splitOn '.') : isIdentifier component = true := by
  simp only [isVariableName, isIdentifier, Bool.and_eq_true, List.all_eq_true] at h ⊢
  refine ⟨fun c hc => ?_, h.1.2 component hmem⟩
  obtain ⟨hc, hpoint⟩ := DottedNames.mem_of_mem_splitOn hmem hc
  simp [isWord, h.1.1 c hc, hpoint]

theorem lexes_path (hclosing : IsClosing closing) (hend : ∀ c ∈ s.head?, isWord c = false)
    (h : Lexes closing s ls rest) (names : List CString)
    (hnames : ∀ name ∈ names, isIdentifier name = true) (hne : names ≠ []) :
    Lexes closing (['.'].intercalate names ++ s) (pathLexemes names ++ ls) rest := by
  induction names with
  | nil => exact absurd rfl hne
  | cons name names ih =>
    have hname := hnames name List.mem_cons_self
    cases names with
    | nil =>
      rw [List.intercalate_singleton]
      exact lexes_word hclosing hname hend h
    | cons next names =>
      rw [List.intercalate_cons_cons, List.append_assoc, List.append_assoc]
      refine lexes_word hclosing hname (fun c hc => ?_)
        (lexes_operator hclosing (by decide)
          (ih (fun name hmem => hnames name (List.mem_cons_of_mem _ hmem))
            (List.cons_ne_nil _ _)))
      cases hc
      rfl

theorem lexes_variableName (hclosing : IsClosing closing) (hname : isVariableName name = true)
    (hend : ∀ c ∈ s.head?, isWord c = false) (h : Lexes closing s ls rest) :
    Lexes closing (name ++ s) (pathLexemes (name.splitOn '.') ++ ls) rest := by
  have hpath := lexes_path hclosing hend h (name.splitOn '.')
    (fun component hmem => mem_splitOn hname hmem) (List.splitOn_ne_nil _ _)
  rwa [List.intercalate_splitOn] at hpath

/-- No further attribute follows. -/
def EndsPath : List Lexeme → Prop
  | .operator c :: .name _ :: _ => c ≠ '.'
  | _ => True

theorem readFields_of_endsPath (h : EndsPath ls) : readFields ls = ([], ls) := by
  unfold readFields
  split
  · have hc : _ ≠ '.' := h
    rw [if_neg hc]
  · rfl

theorem readFields_pathLexemes (h : EndsPath ls) (names : List CString) (hne : names ≠ []) :
    readFields (.operator '.' :: (pathLexemes names ++ ls)) = (names, ls) := by
  induction names with
  | nil => exact absurd rfl hne
  | cons name names ih =>
    cases names with
    | nil => simp [pathLexemes, readFields, readFields_of_endsPath h]
    | cons next names =>
      have ih := ih (List.cons_ne_nil _ _)
      simp only [pathLexemes, List.cons_append, readFields, if_true] at ih ⊢
      simp [ih]

theorem readPath_pathLexemes (hname : isVariableName name = true) (h : EndsPath ls) :
    readPath (pathLexemes (name.splitOn '.') ++ ls) = some (name.splitOn '.', ls) := by
  simp only [isVariableName, Bool.and_eq_true, Bool.not_eq_true'] at hname
  obtain ⟨names, hsplit⟩ := DottedNames.exists_splitOn_eq '.' name
  have hreserved : reservedNames.contains (name.takeWhile (· ≠ '.')) = false := hname.2
  rw [hsplit]
  generalize name.takeWhile (· ≠ '.') = first at *
  cases names with
  | nil =>
    simp only [pathLexemes, List.cons_append, List.nil_append, readPath, hreserved,
      readFields_of_endsPath h]
    rfl
  | cons next names =>
    have hfields := readFields_pathLexemes h (next :: names) (List.cons_ne_nil _ _)
    simp only [pathLexemes, List.cons_append, readPath, hreserved, hfields]
    rfl

end Names

variable {body : CString}

section Constants

theorem readConstant_end (delimiter : Char) (s : CString) :
    readConstant delimiter (delimiter :: s) = some ([], s) := by
  rw [readConstant.eq_def]
  simp

variable {delimiter : Char}

theorem readConstant_char (hdelimiter : c ≠ delimiter) (hc : c ≠ '\\') (s : CString) :
    readConstant delimiter (c :: s) =
      (readConstant delimiter s).map fun r => (c :: r.1, r.2) := by
  rw [readConstant.eq_def]
  simp [hdelimiter, hc]

theorem readConstant_plain (h : ∀ c ∈ body, c ≠ delimiter ∧ c ≠ '\\') (s : CString) :
    readConstant delimiter (body ++ delimiter :: s) = some (body, s) := by
  induction body with
  | nil => exact readConstant_end delimiter s
  | cons c body ih =>
    obtain ⟨hdelimiter, hbackslash⟩ := h c List.mem_cons_self
    rw [List.cons_append, readConstant_char hdelimiter hbackslash,
      ih fun c hc => h c (List.mem_cons_of_mem _ hc)]
    rfl

variable {d : Char}

theorem readConstant_simple (hdelimiter : '\\' ≠ delimiter) (hd : simpleEscape d = some c)
    (s : CString) :
    readConstant delimiter ('\\' :: d :: s) =
      (readConstant delimiter s).map fun r => (c :: r.1, r.2) := by
  rw [readConstant.eq_def]
  simp [hdelimiter, hd]

theorem readConstant_backslash (hdelimiter : '\\' ≠ delimiter) (hsimple : simpleEscape d = none)
    (hlong : longEscapes.contains d = false) (s : CString) :
    readConstant delimiter ('\\' :: d :: s) =
      (readConstant delimiter s).map fun r => ('\\' :: d :: r.1, r.2) := by
  have hx : d ≠ 'x' := by
    rintro rfl
    exact absurd hlong (by decide)
  rw [readConstant.eq_def]
  simp only [hdelimiter, if_false, if_true, hsimple, hx, hlong, Bool.false_eq_true]

theorem readConstant_hex {high low : Char} (hdelimiter : '\\' ≠ delimiter) {h l : Nat}
    (hhigh : hexValue high = some h) (hlow : hexValue low = some l) (s : CString) :
    readConstant delimiter ('\\' :: 'x' :: high :: low :: s) =
      (readConstant delimiter s).map fun r => (Char.ofNat (16 * h + l) :: r.1, r.2) := by
  have hsimple : simpleEscape 'x' = none := by decide
  rw [readConstant.eq_def]
  simp [hdelimiter, hsimple, hhigh, hlow]

/-- Nothing in the text is taken for an escape, the end of the constant or another end of a line. -/
def isVerbatim : CString → Bool
  | [] => true
  | c :: s =>
    c ≠ doubleQuote && !isOtherLineEnd c &&
      (c ≠ '\\' || s.head?.any fun d => simpleEscape d = none && !longEscapes.contains d) &&
      isVerbatim s

theorem isVerbatim_cons {s : CString} (h : isVerbatim (c :: s) = true) :
    c ≠ doubleQuote ∧ isOtherLineEnd c = false ∧
      (c = '\\' → ∃ d t, s = d :: t ∧ simpleEscape d = none ∧ longEscapes.contains d = false) ∧
      isVerbatim s = true := by
  simp only [isVerbatim, Bool.and_eq_true, Bool.or_eq_true, decide_eq_true_eq,
    Bool.not_eq_true'] at h
  refine ⟨h.1.1.1, h.1.1.2, fun hc => ?_, h.2⟩
  cases s with
  | nil => simp [hc] at h
  | cons d t => exact ⟨d, t, rfl, by simpa [hc] using h.1.2⟩

theorem readConstant_verbatim (h : isVerbatim body = true) (s : CString) :
    readConstant doubleQuote (body ++ doubleQuote :: s) = some (body, s) := by
  induction body with
  | nil => exact readConstant_end doubleQuote s
  | cons c body ih =>
    obtain ⟨hquote, -, hescape, hbody⟩ := isVerbatim_cons h
    have ih := ih hbody
    by_cases hc : c = '\\'
    · obtain ⟨d, t, rfl, hsimple, hlong⟩ := hescape hc
      have hd : d ≠ '\\' := by
        rintro rfl
        exact absurd hsimple (by decide)
      rw [List.cons_append, readConstant_char (isVerbatim_cons hbody).1 hd] at ih
      obtain ⟨r, hr, heq⟩ := Option.map_eq_some_iff.mp ih
      rw [hc, List.cons_append, List.cons_append,
        readConstant_backslash (by decide) hsimple hlong, hr]
      simp_all
    · rw [List.cons_append, readConstant_char hquote hc, ih]
      rfl

theorem hexValue_digitChar : ∀ d < 16, hexValue (Nat.digitChar d) = some d := by decide

/-- Characters whose encoding is read as they are. -/
def isEncodable (c : Char) : Bool := c.toNat < 128 && c ≠ doubleQuote

theorem utf8EncodeChar_of_lt (h : c.toNat < 128) :
    String.utf8EncodeChar c = [UInt8.ofNat c.toNat] := by
  have hle : c.val.toNat ≤ 0x7f := Nat.le_of_lt_succ h
  rw [String.utf8EncodeChar]
  exact if_pos hle

theorem readConstant_escapeChar (h : isEncodable c = true) (s : CString) :
    readConstant doubleQuote (escapeChar c ++ s) =
      (readConstant doubleQuote s).map fun r => (c :: r.1, r.2) := by
  simp only [isEncodable, Bool.and_eq_true, decide_eq_true_eq] at h
  obtain ⟨hc, hquote⟩ := h
  unfold escapeChar
  split_ifs with h1 h2 h3 h4 h5 h6
  · rw [h1]
    exact readConstant_simple (by decide) rfl s
  · rw [h2]
    exact readConstant_simple (by decide) rfl s
  · rw [h3]
    exact readConstant_simple (by decide) rfl s
  · rw [h4]
    exact readConstant_simple (by decide) rfl s
  · rw [h5]
    exact readConstant_simple (by decide) rfl s
  · exact readConstant_char hquote h1 s
  · have hbyte : (UInt8.ofNat c.toNat).toNat = c.toNat := by
      rw [UInt8.toNat_ofNat']
      exact Nat.mod_eq_of_lt (by omega)
    have hvalue : 16 * (c.toNat / 16) + c.toNat % 16 = c.toNat := Nat.div_add_mod _ _
    rw [utf8EncodeChar_of_lt hc, List.flatMap_singleton, hexDigits, hbyte]
    refine (readConstant_hex (by decide) (hexValue_digitChar _ (by omega))
      (hexValue_digitChar _ (by omega)) s).trans ?_
    rw [hvalue, Char.ofNat_toNat]

theorem readConstant_stringEscape (h : body.all isEncodable = true) (s : CString) :
    readConstant doubleQuote (stringEscape body ++ doubleQuote :: s) = some (body, s) := by
  induction body with
  | nil => exact readConstant_end doubleQuote s
  | cons c body ih =>
    rw [List.all_cons, Bool.and_eq_true] at h
    have ih := ih h.2
    rw [stringEscape] at ih ⊢
    rw [List.flatMap_cons, List.append_assoc, readConstant_escapeChar h.1, ih]
    rfl

end Constants

section Blocks

theorem isClosing_block : IsClosing ['$', '>'] := .inr rfl

def BlockReads (b : CString) (item : Item) : Prop :=
  ∀ s, readBlock (b ++ '$' :: '>' :: s) = .ok (item, s)

/-- The block is an error of syntax, whatever follows it. -/
def BlockFails (b : CString) : Prop :=
  ∀ s, readBlock (b ++ '$' :: '>' :: s) = .error .syntaxError

theorem readBlock_of_lexes {s rest : CString} {ls : List Lexeme} (h : Lexes ['$', '>'] s ls rest) :
    readBlock s = (readStatement ls).map fun item => (item, rest) := by
  rw [readBlock, h _ (Nat.lt_succ_self _)]

theorem isWord_blockEnd (s : CString) : ∀ c ∈ ('$' :: '>' :: s).head?, isWord c = false := by
  intro c hc
  cases hc
  rfl

structure IsIterator (i : CString) : Prop where
  isVariable : isVariableName i = true
  notMem : '.' ∉ i
  notLoop : i ≠ loopName

variable {i : CString}

theorem IsIterator.isIdentifier (h : IsIterator i) : isIdentifier i = true := by
  refine mem_splitOn h.isVariable ?_
  rw [List.splitOn_eq_singleton h.notMem]
  exact List.mem_singleton_self _

theorem IsIterator.isTarget (h : IsIterator i) : isTarget i = true := by
  have hvariable := h.isVariable
  have htake : i.takeWhile (· ≠ '.') = i :=
    List.takeWhile_eq_self_iff.mpr fun c hc => by
      simpa using fun heq : c = '.' => h.notMem (heq ▸ hc)
  simp only [isVariableName, Bool.and_eq_true, htake] at hvariable
  rw [Loops.isTarget, hvariable.2]
  simpa using h.notLoop

variable {word : CString}

theorem head?_pathLexemes (name : CString) :
    (pathLexemes (name.splitOn '.')).head? = some (.name (name.takeWhile (· ≠ '.'))) := by
  obtain ⟨names, hsplit⟩ := DottedNames.exists_splitOn_eq '.' name
  rw [hsplit]
  cases names <;> rfl

theorem lexes_for (hi : IsIterator i) (hname : isVariableName name = true) (s : CString) :
    Lexes ['$', '>'] ("for ".toList ++ i ++ " in ".toList ++ name ++ '$' :: '>' :: s)
      (.name "for".toList :: .name i :: .name "in".toList :: pathLexemes (name.splitOn '.')) s := by
  have hend := lexes_variableName isClosing_block hname (isWord_blockEnd s)
    (lexes_stop ['$', '>'] s)
  have hin := lexes_keyword isClosing_block (w := "in".toList) rfl hend
  have hfor := lexes_keyword isClosing_block (w := "for".toList) rfl
    (lexes_keyword isClosing_block hi.isIdentifier hin)
  rw [List.append_nil] at hfor
  simpa using hfor

/-- The variable of a loop and the first name of its list are not words that end them. -/
def LoopNames (i name : CString) : Prop :=
  i ≠ "in".toList ∧ name.takeWhile (· ≠ '.') ≠ "recursive".toList

theorem blockFails_for (hi : IsIterator i) (hname : isVariableName name = true)
    (hnames : ¬ LoopNames i name) : BlockFails ("for ".toList ++ i ++ " in ".toList ++ name) := by
  intro s
  rw [LoopNames, not_and_or, not_not, not_not] at hnames
  have hwords : i = "in".toList ∨ "in".toList = "in".toList ∧
      (pathLexemes (name.splitOn '.')).head? = some (.name "recursive".toList) :=
    hnames.imp_right fun h => ⟨rfl, by rw [head?_pathLexemes, h]⟩
  rw [readBlock_of_lexes (lexes_for hi hname s), readStatement, if_pos rfl, readFor, if_pos hwords]
  rfl

theorem blockReads_for (hi : IsIterator i) (hname : isVariableName name = true)
    (hnames : LoopNames i name) :
    BlockReads ("for ".toList ++ i ++ " in ".toList ++ name) (.forBegin i (name.splitOn '.')) := by
  intro s
  have hpath : readPath (pathLexemes (name.splitOn '.') ++ []) = some (name.splitOn '.', []) :=
    readPath_pathLexemes hname trivial
  rw [List.append_nil] at hpath
  have hwords : ¬ (i = "in".toList ∨ "in".toList = "in".toList ∧
      (pathLexemes (name.splitOn '.')).head? = some (.name "recursive".toList)) := by
    rw [head?_pathLexemes, Option.some_inj, Lexeme.name.injEq]
    exact fun h => h.elim hnames.1 fun h => hnames.2 h.2
  rw [readBlock_of_lexes (lexes_for hi hname s), readStatement, if_pos rfl, readFor, if_neg hwords]
  simp [hpath, hi.isTarget, Except.map]

theorem blockReads_endfor : BlockReads "endfor".toList .endforMark := by
  intro s
  have hlexes : Lexes ['$', '>'] ("endfor".toList ++ '$' :: '>' :: s) [.name "endfor".toList] s :=
    lexes_word isClosing_block rfl (isWord_blockEnd s) (lexes_stop ['$', '>'] s)
  rw [readBlock_of_lexes hlexes]
  rfl

theorem blockReads_endif : BlockReads "endif".toList .endifMark := by
  intro s
  have hlexes : Lexes ['$', '>'] ("endif".toList ++ '$' :: '>' :: s) [.name "endif".toList] s :=
    lexes_word isClosing_block rfl (isWord_blockEnd s) (lexes_stop ['$', '>'] s)
  rw [readBlock_of_lexes hlexes]
  rfl

theorem blockReads_notFirst : BlockReads ("if ".toList ++ notFirst 1) .ifNotFirst := by
  intro s
  have hlexes : Lexes ['$', '>'] ("if ".toList ++ notFirst 1 ++ '$' :: '>' :: s)
      [.name "if".toList, .name "not".toList, .name loopName, .operator '.',
        .name "first".toList] s := by
    have hend := lexes_path isClosing_block (isWord_blockEnd s) (lexes_stop ['$', '>'] s)
      [loopName, "first".toList] (by decide) (List.cons_ne_nil _ _)
    exact lexes_keyword isClosing_block (w := "if".toList) rfl
      (lexes_keyword isClosing_block (w := "not".toList) rfl hend)
  rw [readBlock_of_lexes hlexes]
  rfl

theorem blockReads_include (hname : ∀ c ∈ name, c ≠ quote ∧ c ≠ '\\') :
    BlockReads ("include ".toList ++ [quote] ++ name ++ [quote]) (.inclusion name) := by
  intro s
  have hlexes : Lexes ['$', '>']
      ("include ".toList ++ [quote] ++ name ++ [quote] ++ '$' :: '>' :: s)
      [.name "include".toList, .constant name] s := by
    have hend := lexes_constant isClosing_block (.inl rfl)
      (readConstant_plain hname ('$' :: '>' :: s)) (lexes_stop ['$', '>'] s)
    have hinclude := lexes_keyword isClosing_block (w := "include".toList) rfl hend
    simpa using hinclude
  rw [readBlock_of_lexes hlexes]
  rfl

def loopVariable (n : Nat) : CString := "loop".toList ++ (toString n).toList

theorem toList_toString (n : Nat) : (toString n).toList = Nat.toDigits 10 n := by
  simp

theorem all_isWord_toString (n : Nat) : (toString n).toList.all isWord = true := by
  rw [toList_toString, List.all_eq_true]
  intro c hc
  have hdigit : c.isDigit = true := Nat.isDigit_of_mem_toDigits (by decide) (by decide) hc
  have hpoint : c ≠ '.' := by
    rintro rfl
    exact absurd hdigit (by decide)
  simp [isWord, isName, Char.isAlphanum, hdigit, hpoint]

theorem isIdentifier_loop (hword : word = [] ∨ word = "and".toList) {rest : CString}
    (hrest : rest.all isWord = true) :
    isIdentifier (word ++ "loop".toList ++ rest) = true := by
  have hloop : (word ++ "loop".toList).all isWord = true := by
    rcases hword with rfl | rfl <;> rfl
  have hstart : startsIdentifier (word ++ "loop".toList ++ rest) = true := by
    rcases hword with rfl | rfl <;> rfl
  rw [isIdentifier, List.all_append, hloop, hrest, hstart]
  rfl

theorem blockReads_set (n : Nat) :
    BlockReads ("set loop".toList ++ (toString n).toList ++ " = loop".toList) .setMark := by
  intro s
  have hlexes : Lexes ['$', '>']
      ("set loop".toList ++ (toString n).toList ++ " = loop".toList ++ '$' :: '>' :: s)
      [.name "set".toList, .name (loopVariable n), .operator '=', .name loopName] s := by
    have hend := lexes_space isClosing_block (lexes_word isClosing_block (w := loopName)
      rfl (isWord_blockEnd s) (lexes_stop ['$', '>'] s))
    have hset := lexes_keyword isClosing_block (w := "set".toList) rfl
      (lexes_keyword isClosing_block (isIdentifier_loop (.inl rfl) (all_isWord_toString n))
        (lexes_operator isClosing_block (c := '=') (by decide) hend))
    simpa [loopVariable, loopName] using hset
  have htarget : isTarget (loopVariable n) = true := by
    simp [isTarget, loopVariable, reservedNames, loopName]
  rw [readBlock_of_lexes hlexes]
  simp [readStatement, readSet, readPath, readFields, htarget, Except.map, loopName,
    reservedNames]

/-- In the condition for several loops, `and` and the next variable are one name. -/
theorem lexes_firsts (ms : List Nat) (word s : CString) (hword : word = [] ∨ word = "and".toList) :
    ∃ first ls,
      Lexes ['$', '>']
        (word ++ ((ms.flatMap fun m => loopVariable m ++ ".first and".toList) ++
          "loop.first)".toList ++ '$' :: '>' :: s))
        (.name (word ++ "loop".toList ++ first) :: .operator '.' :: .name "first".toList :: ls) s ∧
      (ms ≠ [] → ∃ next ls', ls = .name ("andloop".toList ++ next) :: ls') := by
  induction ms generalizing word with
  | nil =>
    refine ⟨[], [.operator ')'], ?_, fun h => absurd rfl h⟩
    have hend := lexes_word isClosing_block (w := "first".toList) rfl
      (s := ')' :: '$' :: '>' :: s) (fun c hc => by cases hc; rfl)
      (lexes_operator isClosing_block (by decide) (lexes_stop ['$', '>'] s))
    have hloop := lexes_word isClosing_block (w := word ++ "loop".toList ++ [])
      (isIdentifier_loop hword rfl)
      (s := '.' :: ("first".toList ++ ')' :: '$' :: '>' :: s)) (fun c hc => by cases hc; rfl)
      (lexes_operator isClosing_block (by decide) hend)
    simpa using hloop
  | cons m ms ih =>
    obtain ⟨next, ls, hnext, -⟩ := ih "and".toList (.inr rfl)
    refine ⟨(toString m).toList,
      .name ("andloop".toList ++ next) :: .operator '.' :: .name "first".toList :: ls, ?_,
      fun _ => ⟨next, _, rfl⟩⟩
    have hfirst := lexes_keyword isClosing_block (w := "first".toList) rfl hnext
    have hloop := lexes_word isClosing_block (w := word ++ "loop".toList ++ (toString m).toList)
      (isIdentifier_loop hword (all_isWord_toString m)) (fun c hc => by cases hc; rfl)
      (lexes_operator isClosing_block (c := '.') (by decide) hfirst)
    simpa [loopVariable] using hloop

theorem readBlock_notFirst {total : Nat} (htotal : 1 < total) (s : CString) :
    readBlock ("if ".toList ++ notFirst total ++ '$' :: '>' :: s) = .error .syntaxError := by
  obtain ⟨first, ls, hfirst, hnext⟩ := lexes_firsts (List.range (total - 1)) [] s (.inl rfl)
  obtain ⟨next, ls', rfl⟩ := hnext (by simp; omega)
  have hlexes : Lexes ['$', '>'] ("if ".toList ++ notFirst total ++ '$' :: '>' :: s)
      (.name "if".toList :: .name "not".toList :: .operator '(' ::
        .name ("loop".toList ++ first) :: .operator '.' :: .name "first".toList ::
        .name ("andloop".toList ++ next) :: ls') s := by
    have hif := lexes_keyword isClosing_block (w := "if".toList) rfl
      (lexes_keyword isClosing_block (w := "not".toList) rfl
        (lexes_operator isClosing_block (c := '(') (by decide) hfirst))
    have htotal' : total ≠ 1 := by omega
    simpa [notFirst, htotal', loopVariable] using hif
  rw [readBlock_of_lexes hlexes]
  simp [readStatement, readCondition, readPath, readFields, reservedNames, operatorNames,
    Except.map]

end Blocks

section Variables

theorem isClosing_variable : IsClosing ['}', '}'] := .inl rfl

def VariableReads (v : CString) (item : Item) : Prop :=
  ∀ s, readVariable (v ++ '}' :: '}' :: s) = .ok (item, s)

theorem readVariable_of_lexes {s rest : CString} {ls : List Lexeme} {e : Expr}
    (h : Lexes ['}', '}'] s ls rest) (he : readExpr ls = some e) :
    readVariable s = .ok (.output e, rest) := by
  rw [readVariable, h _ (Nat.lt_succ_self _)]
  simp only [he]

theorem readExpr_pathLexemes (hname : isVariableName name = true) {ls : List Lexeme}
    (h : EndsPath ls) :
    readExpr (pathLexemes (name.splitOn '.') ++ ls) = readFilter (name.splitOn '.') ls := by
  have hpath := readPath_pathLexemes hname h
  unfold readExpr
  split
  · rename_i s heq
    rw [heq] at hpath
    cases hpath
  · rw [hpath]
    rfl

theorem variableReads_name (hname : isVariableName name = true) :
    VariableReads name (.output (.path (name.splitOn '.'))) := by
  intro s
  have hlexes := lexes_variableName isClosing_variable hname (s := '}' :: '}' :: s)
    (fun c hc => by cases hc; rfl) (lexes_stop ['}', '}'] s)
  exact readVariable_of_lexes hlexes (readExpr_pathLexemes hname trivial)

theorem variableReads_special {group : CString}
    (h : group ∈ [['<'], ['<', '#'], ['{', '{'], ['}', '}'], ['#', '>']]) :
    VariableReads ([' ', quote] ++ group ++ [quote, ' ']) (.output (.constant group)) := by
  intro s
  have hplain : ∀ c ∈ group, c ≠ quote ∧ c ≠ '\\' := by
    simp only [List.mem_cons, List.not_mem_nil, or_false] at h
    rcases h with rfl | rfl | rfl | rfl | rfl <;> simp [quote]
  have hlexes : Lexes ['}', '}'] ([' ', quote] ++ group ++ [quote, ' '] ++ '}' :: '}' :: s)
      [.constant group] s := by
    have hend := lexes_space isClosing_variable (lexes_stop ['}', '}'] s)
    have hconstant := lexes_space isClosing_variable (lexes_constant isClosing_variable (.inl rfl)
      (readConstant_plain hplain _) hend)
    simpa using hconstant
  exact readVariable_of_lexes hlexes rfl

def ConstantReads (body value : CString) : Prop :=
  ∀ s, readConstant doubleQuote (body ++ doubleQuote :: s) = some (value, s)

variable {rel d : CString}

theorem lexes_join (hrel : isVariableName rel = true) (hbody : ConstantReads body d)
    {t s : CString} {ls : List Lexeme} (h : Lexes ['}', '}'] t ls s) :
    Lexes ['}', '}'] (rel ++ " | join(d=\"".toList ++ body ++ doubleQuote :: t)
      (pathLexemes (rel.splitOn '.') ++ .operator '|' :: .name "join".toList :: .operator '(' ::
        .name ['d'] :: .operator '=' :: .constant d :: ls) s := by
  have hdouble : doubleQuote = '\x22' := rfl
  have hconstant := lexes_operator isClosing_variable (c := '=') (by decide)
    (lexes_constant isClosing_variable (.inr rfl) (hbody _) h)
  have harg := lexes_operator isClosing_variable (c := '(') (by decide)
    (lexes_word isClosing_variable (w := ['d']) rfl
      (fun c hc => by cases hc; rfl) hconstant)
  have hjoin := lexes_space isClosing_variable (lexes_word isClosing_variable
    (w := "join".toList) rfl (fun c hc => by cases hc; rfl) harg)
  have hfilter := lexes_variableName isClosing_variable hrel (fun c hc => by cases hc; rfl)
    (lexes_space isClosing_variable
      (lexes_operator isClosing_variable (c := '|') (by decide) hjoin))
  simpa [hdouble] using hfilter

theorem variableReads_join (hrel : isVariableName rel = true) (hbody : ConstantReads body d) :
    VariableReads (rel ++ " | join(d=\"".toList ++ body ++ "\")".toList)
      (.output (.join (rel.splitOn '.') d none)) := by
  intro s
  have hend := lexes_operator isClosing_variable (c := ')') (by decide)
    (lexes_stop ['}', '}'] s)
  have hlexes := lexes_join hrel hbody hend
  have htext : rel ++ " | join(d=\"".toList ++ body ++ "\")".toList ++ '}' :: '}' :: s =
      rel ++ " | join(d=\"".toList ++ body ++ doubleQuote :: ')' :: (['}', '}'] ++ s) :=
    List.append_assoc _ _ _
  rw [htext]
  refine readVariable_of_lexes hlexes ((readExpr_pathLexemes hrel ?_).trans ?_)
  · simp [EndsPath]
  · simp [readFilter]

/-- Attributes of a name that is read as it is meant. -/
structure IsAttribute (attr : CString) : Prop where
  isName : ∀ c ∈ attr, isName c = true
  starts : (attr.splitOn '.').all startsIdentifier = true

theorem variableReads_joinAttribute {attr : CString} (hrel : isVariableName rel = true)
    (hbody : ConstantReads body d) (hattr : IsAttribute attr) :
    VariableReads
      (rel ++ " | join(d=\"".toList ++ body ++ "\", attribute=\"".toList ++ attr ++ "\")".toList)
      (.output (.join (rel.splitOn '.') d (some attr))) := by
  intro s
  have hplain : ∀ c ∈ attr, c ≠ doubleQuote ∧ c ≠ '\\' := by
    intro c hc
    have hname := hattr.isName c hc
    constructor <;> rintro rfl <;> exact absurd hname (by decide)
  have hend := lexes_operator isClosing_variable (c := ')') (by decide)
    (lexes_stop ['}', '}'] s)
  have hconstant := lexes_operator isClosing_variable (c := '=') (by decide)
    (lexes_constant isClosing_variable (.inr rfl) (readConstant_plain hplain _) hend)
  have hattribute := lexes_space isClosing_variable (lexes_word isClosing_variable
    (w := "attribute".toList) rfl (fun c hc => by cases hc; rfl) hconstant)
  have hlexes := lexes_join hrel hbody
    (lexes_operator isClosing_variable (c := ',') (by decide) hattribute)
  have htext : rel ++ " | join(d=\"".toList ++ body ++ "\", attribute=\"".toList ++ attr ++
        "\")".toList ++ '}' :: '}' :: s =
      rel ++ " | join(d=\"".toList ++ body ++ doubleQuote :: ',' :: ' ' :: ("attribute".toList ++
        '=' :: doubleQuote :: (attr ++ doubleQuote :: ')' :: (['}', '}'] ++ s))) := by
    simp [doubleQuote]
  rw [htext]
  refine readVariable_of_lexes hlexes ((readExpr_pathLexemes hrel ?_).trans ?_)
  · simp [EndsPath]
  · simp [readFilter, hattr.starts]

end Variables

section Items

/-- Whatever bound is large enough, the items are read. -/
def Reads (text : CString) (items : List Item) : Prop :=
  ∀ n, text.length ≤ n → lexFrom n text = .ok items

/-- Whatever bound is large enough, an error of syntax is found. -/
def Rejects (text : CString) : Prop :=
  ∀ n, text.length ≤ n → lexFrom n text = .error .syntaxError

@[simp] theorem reads_nil : Reads [] [] := by
  intro n hn
  rw [lexFrom]

variable {b text : CString} {items : List Item} {item : Item}

variable {bs : List CString} {v : CString}

theorem lexFrom_cons {n : Nat} (hopens : ∀ d ∈ s.head?, opens c d = false) :
    lexFrom (n + 1) (c :: s) = (lexFrom n s).map fun items => .char c :: items := by
  generalize hr : lexFrom n s = r
  unfold lexFrom
  split
  · simp_all
  · simp_all
  · simp_all [opens]
  · simp_all [opens]
  · simp_all [opens]
  · simp_all
    cases r <;> rfl

theorem reads_char (hopens : ∀ d ∈ s.head?, opens c d = false) (h : Reads s items) :
    Reads (c :: s) (.char c :: items) := by
  intro n hn
  rw [List.length_cons] at hn
  obtain ⟨k, rfl⟩ : ∃ k, n = k + 1 := ⟨n - 1, by omega⟩
  rw [lexFrom_cons hopens, h k (by omega)]
  rfl

theorem length_trimNewline_le (s : CString) : (trimNewline s).length ≤ s.length := by
  unfold trimNewline
  split <;> simp

def block (b : CString) : CString := ['<', '$'] ++ b ++ ['$', '>']

def variableText (v : CString) : CString := ['{', '{'] ++ v ++ ['}', '}']

theorem lexFrom_block (hb : BlockReads b item) {r : Except Unread (List Item)}
    (h : ∀ n, (trimNewline s).length ≤ n → lexFrom n (trimNewline s) = r) (n : Nat)
    (hn : (block b ++ s).length ≤ n) :
    lexFrom n (block b ++ s) = r.map fun items => item :: items := by
  have hlength := length_trimNewline_le s
  rw [List.length_append, block, List.length_append, List.length_append] at hn
  simp only [List.length_cons, List.length_nil] at hn
  obtain ⟨k, rfl⟩ : ∃ k, n = k + 1 := ⟨n - 1, by omega⟩
  have htext : block b ++ s = '<' :: '$' :: (b ++ '$' :: '>' :: s) := by simp [block]
  rw [htext, lexFrom, hb s, ← h k (by omega)]
  rfl

theorem reads_block (hb : BlockReads b item) (h : Reads (trimNewline s) items) :
    Reads (block b ++ s) (item :: items) :=
  lexFrom_block hb h

theorem rejects_block (hb : BlockReads b item) (h : Rejects (trimNewline s)) :
    Rejects (block b ++ s) :=
  lexFrom_block hb h

theorem rejects_error {b : CString} (hb : BlockFails b) (s : CString) : Rejects (block b ++ s) := by
  intro n hn
  rw [List.length_append, block, List.length_append, List.length_append] at hn
  simp only [List.length_cons, List.length_nil] at hn
  obtain ⟨k, rfl⟩ : ∃ k, n = k + 1 := ⟨n - 1, by omega⟩
  have htext : block b ++ s = '<' :: '$' :: (b ++ '$' :: '>' :: s) := by simp [block]
  rw [htext, lexFrom, hb s]
  rfl

@[simp] theorem trimNewline_block (b s : CString) : trimNewline (block b ++ s) = block b ++ s := rfl

@[simp] theorem trimNewline_variableText (v s : CString) :
    trimNewline (variableText v ++ s) = variableText v ++ s := rfl

/-- Whether or not a block before it is an error, too. -/
theorem rejects_blocks (hbs : ∀ b ∈ bs, (∃ item, BlockReads b item) ∨ BlockFails b)
    (htrim : trimNewline s = s) (h : Rejects s) :
    trimNewline (bs.flatMap block ++ s) = bs.flatMap block ++ s ∧
      Rejects (bs.flatMap block ++ s) := by
  induction bs with
  | nil => exact ⟨htrim, h⟩
  | cons b bs ih =>
    have hrest := ih fun b' hb' => hbs b' (List.mem_cons_of_mem b hb')
    rw [List.flatMap_cons, List.append_assoc]
    refine ⟨trimNewline_block _ _, ?_⟩
    rcases hbs b List.mem_cons_self with ⟨item, hb⟩ | hb
    · refine rejects_block hb ?_
      rw [hrest.1]
      exact hrest.2
    · exact rejects_error hb _

theorem reads_variable (hv : VariableReads v item) (h : Reads s items) :
    Reads (variableText v ++ s) (item :: items) := by
  intro n hn
  rw [List.length_append, variableText, List.length_append, List.length_append] at hn
  simp only [List.length_cons, List.length_nil] at hn
  obtain ⟨k, rfl⟩ : ∃ k, n = k + 1 := ⟨n - 1, by omega⟩
  have htext : variableText v ++ s = '{' :: '{' :: (v ++ '}' :: '}' :: s) := by
    simp [variableText]
  rw [htext, lexFrom, hv s]
  simp [h k (by omega), bind, Except.bind, pure, Except.pure]

/-- The piece is read as the items, whatever text follows it that begins with no newline. -/
def Piece (text : CString) (items : List Item) : Prop :=
  ∀ s items', trimNewline s = s → Reads s items' →
    trimNewline (text ++ s) = text ++ s ∧ Reads (text ++ s) (items ++ items')

theorem Piece.nil : Piece [] [] := fun _ _ htrim hs => ⟨htrim, hs⟩

theorem Piece.append {text' : CString} {items' : List Item} (h : Piece text items)
    (h' : Piece text' items') : Piece (text ++ text') (items ++ items') := by
  intro s tail htrim hs
  obtain ⟨htrim', hs'⟩ := h' s tail htrim hs
  rw [List.append_assoc, List.append_assoc]
  exact h _ _ htrim' hs'

theorem piece_block (hb : BlockReads b item) : Piece (block b) [item] := by
  intro s items htrim hs
  refine ⟨trimNewline_block b s, reads_block hb ?_⟩
  rwa [htrim]

theorem piece_blocks (hbs : List.Forall₂ BlockReads bs items) : Piece (bs.flatMap block) items := by
  induction hbs with
  | nil => exact .nil
  | cons hb _ ih => exact (piece_block hb).append ih

theorem piece_variable (hv : VariableReads v item) : Piece (variableText v) [item] :=
  fun s _ _ hs => ⟨trimNewline_variableText v s, reads_variable hv hs⟩

def partItem : Part → Item
  | .plain c => .char c
  | .special group => .output (.constant group)

theorem reads_parts {s : CString} {items : List Item} (h : Reads ('<' :: s) items) (ps : List Part)
    (hspecial : ∀ group, .special group ∈ ps →
      group ∈ [['<'], ['<', '#'], ['{', '{'], ['}', '}'], ['#', '>']])
    (hapart : (ps.map Part.item).IsChain Apart) :
    Reads (ps.flatMap Part.written ++ '<' :: s) (ps.map partItem ++ items) := by
  induction ps with
  | nil => exact h
  | cons p ps ih =>
    have hrest := ih (fun group hmem => hspecial group (List.mem_cons_of_mem _ hmem)) hapart.tail
    rw [List.flatMap_cons, List.append_assoc]
    cases p with
    | plain c =>
      refine reads_char (fun d hd => ?_) hrest
      cases ps with
      | nil =>
        cases hd
        simp [opens]
      | cons q ps =>
        refine (List.isChain_cons_cons.mp hapart).1 d ?_
        rw [List.flatMap_cons, List.append_assoc, ← Part.written_item] at hd
        change d ∈ (q.item.written ++ _).head? at hd
        rw [List.head?_append_of_ne_nil _ (Item.written_ne_nil _)] at hd
        exact hd
    | special group =>
      have hread := reads_variable (variableReads_special (hspecial group List.mem_cons_self))
        hrest
      have htext : variableText ([' ', quote] ++ group ++ [quote, ' ']) = converter group := by
        simp [variableText, converter]
      rw [htext] at hread
      exact hread

theorem readTemplate_of_piece {nodes : List Node} (hpiece : Piece text items)
    (hparse : parseNodes (items.length + 1) items = some (nodes, []))
    (hends : ∀ c ∈ text, isOtherLineEnd c = false) (hlast : text.getLast? ≠ some '\n') :
    readTemplate text = .ok nodes := by
  have hreads := (hpiece [] [] rfl reads_nil).2
  rw [List.append_nil, List.append_nil] at hreads
  have hany : text.any isOtherLineEnd = false := by
    rw [List.any_eq_false]
    intro c hc
    simp [hends c hc]
  rw [readTemplate, dropLastNewline, if_neg hlast, hreads _ (Nat.le_refl _)]
  simp [bind, Except.bind, hany, hparse]

theorem readTemplate_of_rejects (h : Rejects text) (hlast : text.getLast? ≠ some '\n') :
    readTemplate text = .error .syntaxError := by
  rw [readTemplate, dropLastNewline, if_neg hlast, h _ (Nat.le_refl _)]
  rfl

end Items

end Loops
end TemplateConverter
end KedrAux
