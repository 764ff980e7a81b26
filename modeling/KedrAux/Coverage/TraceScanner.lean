import KedrAux.Lib.Flex
import KedrAux.Coverage.Trace

/-!
# Scanner of trace files

The rules of `trace_scanner.l`.  In `INITIAL` a keyword is expected, in
`DIRECTIVE` the parameters of a directive; a newline returns to `INITIAL`, the
end of the input changes nothing.

A number token keeps its text.  Its value (`yylval->number`, an `unsigned long`)
is `strToLong` of the text.  Of a location only the line is kept.
-/

namespace KedrAux
namespace Coverage

inductive StartCondition where
  | initial
  | directive
deriving DecidableEq

inductive Key where
  | tn | sf | eor | fnf | fnh | fn | fnda | brda | brf | brh | da | lf | lh
deriving DecidableEq

/-- Tokens of the parser, with the texts of those that have a value. -/
inductive Token where
  | key (k : Key)
  | number (text : Str)
  | id (text : Str)
  | path (text : Str)
  | minus
  | comma
  | colon
deriving DecidableEq

/-- `[[:alpha:]]`. -/
def isAlpha (c : Char) : Bool :=
  ('a' ≤ c && c ≤ 'z') || ('A' ≤ c && c ≤ 'Z')

/-- `[0-9]`. -/
def isDigit (c : Char) : Bool :=
  '0' ≤ c && c ≤ '9'

/-- `[1-9]`. -/
def isDigitNz (c : Char) : Bool :=
  '1' ≤ c && c ≤ '9'

/-- `[[:alnum:]]`. -/
def isAlnum (c : Char) : Bool :=
  isAlpha c || isDigit c

/-- `[[:alpha:]_]`. -/
def isIdStart (c : Char) : Bool :=
  isAlpha c || c = '_'

/-- `[[:alnum:]_.]`. -/
def isIdChar (c : Char) : Bool :=
  isAlnum c || c = '_' || c = '.'

/-- `[[:alnum:]_\/@\-\.]`. -/
def isPathChar (c : Char) : Bool :=
  isAlnum c || c = '_' || c = '/' || c = '@' || c = '-' || c = '.'

namespace TracePattern

/-- `{integernz}`. -/
def integernz : Flex.Pattern Char := ⟨isDigitNz, [], some isDigit⟩

/-- `{id}`: name of a function or a test. -/
def id : Flex.Pattern Char := ⟨isIdStart, [], some isIdChar⟩

/-- `{path}`: absolute path to a source file. -/
def path : Flex.Pattern Char := ⟨fun c => c = '/', [isPathChar], some isPathChar⟩

/-- `[[:alpha:]]+`. -/
def alphas : Flex.Pattern Char := ⟨isAlpha, [], some isAlpha⟩

def any : Flex.Pattern Char := ⟨fun c => c ≠ '\n', [], none⟩

def lit : Str → Flex.Pattern Char
  | [] => any
  | c :: text => .lit c text

end TracePattern

def Key.text : Key → Str
  | .tn => ['T', 'N']
  | .sf => ['S', 'F']
  | .eor => ['e', 'n', 'd', '_', 'o', 'f', '_', 'r', 'e', 'c', 'o', 'r', 'd']
  | .fnf => ['F', 'N', 'F']
  | .fnh => ['F', 'N', 'H']
  | .fn => ['F', 'N']
  | .fnda => ['F', 'N', 'D', 'A']
  | .brda => ['B', 'R', 'D', 'A']
  | .brf => ['B', 'R', 'F']
  | .brh => ['B', 'R', 'H']
  | .da => ['D', 'A']
  | .lf => ['L', 'F']
  | .lh => ['L', 'H']

def keywords : List Key :=
  [.tn, .sf, .eor, .fnf, .fnh, .fn, .fnda, .brda, .brf, .brh, .da, .lf, .lh]

abbrev ScanOutcome := Flex.Outcome StartCondition Token Str

def initialRules : List (Flex.Pattern Char × (Str → ScanOutcome)) :=
  keywords.map (fun k => (TracePattern.lit k.text, fun _ => .token (.key k) .directive)) ++
  [ (TracePattern.lit ['\n'], fun _ => .skip .initial),
    (TracePattern.alphas, fun yytext =>
      .error ("Invalid directive: ".toList ++ yytext ++ ".".toList)),
    (TracePattern.any, fun yytext =>
      .error ("Invalid character '".toList ++ yytext.take 1 ++
        "' while directive expected.".toList)) ]

def directiveRules : List (Flex.Pattern Char × (Str → ScanOutcome)) :=
  [ (TracePattern.lit ['0'], fun yytext => .token (.number yytext) .directive),
    (TracePattern.integernz, fun yytext => .token (.number yytext) .directive),
    (TracePattern.lit ['-'], fun _ => .token .minus .directive),
    (TracePattern.lit [','], fun _ => .token .comma .directive),
    (TracePattern.lit [':'], fun _ => .token .colon .directive),
    (TracePattern.id, fun yytext => .token (.id yytext) .directive),
    (TracePattern.path, fun yytext => .token (.path yytext) .directive),
    (TracePattern.lit ['\n'], fun _ => .skip .initial),
    (TracePattern.any, fun _ => .error "Unknown character in directive".toList) ]

/-- `trace_scanner.l`; the location is the line number. -/
def traceScanner : Flex.Scanner Char Nat StartCondition Token Str where
  rules
    | .initial => initialRules
    | .directive => directiveRules
  userAction line yytext :=
    if yytext.head? ≠ some '\n' then line else line + yytext.length
  jammed := "flex scanner jammed".toList

/-- What successive calls of `yylex` return. -/
abbrev Lexemes := Flex.Lexemes Nat StartCondition Token Str

def scan (sc : StartCondition) (line : Nat) (s : Str) : Lexemes :=
  traceScanner.scan 0 sc line s

/-- `str_to_long`: the value in `unsigned long` arithmetic. -/
def strToLong (str : Str) : Nat :=
  str.foldl (fun result c => (result * 10 + (c.toNat - '0'.toNat)) % 2 ^ 64) 0

@[simp] theorem scan_nil (sc : StartCondition) (line : Nat) : scan sc line [] = .eof line sc :=
  traceScanner.scan_nil sc line

theorem longest_newline (sc : StartCondition) (s : Str) :
    Flex.longest (traceScanner.rules sc) ('\n' :: s) =
      some (1, fun _ => .skip .initial) := by
  cases sc <;> rfl

@[simp] theorem scan_newline (sc : StartCondition) (line : Nat) (s : Str) :
    scan sc line ('\n' :: s) = scan .initial (line + 1) s :=
  traceScanner.scan_skip (longest_newline sc s) rfl line

theorem scan_key (k : Key) (line : Nat) (s : Str) :
    scan .initial line (k.text ++ ':' :: s) =
      .token line (.key k) .directive (scan .directive line (':' :: s)) := by
  have hlongest : Flex.longest (traceScanner.rules .initial) (k.text ++ ':' :: s) =
      some (k.text.length, fun _ => .token (.key k) .directive) := by
    cases k <;> rfl
  have hscan := traceScanner.scan_token hlongest rfl line
  cases k <;> exact hscan

theorem scan_eor_newline (line : Nat) (s : Str) :
    scan .initial line (Key.eor.text ++ '\n' :: s) =
      .token line (.key .eor) .directive (scan .directive line ('\n' :: s)) := by
  have hlongest : Flex.longest (traceScanner.rules .initial) (Key.eor.text ++ '\n' :: s) =
      some (Key.eor.text.length, fun _ => .token (.key .eor) .directive) := rfl
  exact traceScanner.scan_token hlongest rfl line

theorem scan_eor_eof (line : Nat) :
    scan .initial line Key.eor.text =
      .token line (.key .eor) .directive (.eof line .directive) := rfl

@[simp] theorem scan_colon (line : Nat) (s : Str) :
    scan .directive line (':' :: s) =
      .token line .colon .directive (scan .directive line s) := by
  have hlongest : Flex.longest (traceScanner.rules .directive) (':' :: s) =
      some (1, fun _ => .token .colon .directive) := rfl
  exact traceScanner.scan_token hlongest rfl line

@[simp] theorem scan_comma (line : Nat) (s : Str) :
    scan .directive line (',' :: s) =
      .token line .comma .directive (scan .directive line s) := by
  have hlongest : Flex.longest (traceScanner.rules .directive) (',' :: s) =
      some (1, fun _ => .token .comma .directive) := rfl
  exact traceScanner.scan_token hlongest rfl line

@[simp] theorem scan_minus (line : Nat) (s : Str) :
    scan .directive line ('-' :: s) =
      .token line .minus .directive (scan .directive line s) := by
  have hlongest : Flex.longest (traceScanner.rules .directive) ('-' :: s) =
      some (1, fun _ => .token .minus .directive) := rfl
  exact traceScanner.scan_token hlongest rfl line

def IsNumber (text : Str) : Prop :=
  text = ['0'] ∨ TracePattern.integernz.Matches text

def IsId (text : Str) : Prop :=
  TracePattern.id.Matches text

def IsPath (text : Str) : Prop :=
  TracePattern.path.Matches text

instance (text : Str) : Decidable (IsNumber text) :=
  inferInstanceAs (Decidable (_ ∨ _))

instance (text : Str) : Decidable (IsId text) :=
  inferInstanceAs (Decidable (TracePattern.id.Matches text))

instance (text : Str) : Decidable (IsPath text) :=
  inferInstanceAs (Decidable (TracePattern.path.Matches text))

variable {c d : Char} {text : Str}

theorem ne_of_class {p : Char → Bool} (hc : p c = true) (hd : p d = false) : c ≠ d := by
  rintro rfl
  rw [hc] at hd
  cases hd

theorem isDigitNz_iff (c : Char) : isDigitNz c = true ↔ 49 ≤ c.toNat ∧ c.toNat ≤ 57 := by
  simp only [isDigitNz, Bool.and_eq_true, decide_eq_true_eq]
  exact Iff.rfl

theorem isAlpha_iff (c : Char) :
    isAlpha c = true ↔
      (97 ≤ c.toNat ∧ c.toNat ≤ 122) ∨ (65 ≤ c.toNat ∧ c.toNat ≤ 90) := by
  simp only [isAlpha, Bool.or_eq_true, Bool.and_eq_true, decide_eq_true_eq]
  exact Iff.rfl

theorem isDigitNz_eq_false_of_isIdStart (h : isIdStart c = true) : isDigitNz c = false := by
  rw [Bool.eq_false_iff, ne_eq, isDigitNz_iff]
  rw [isIdStart, Bool.or_eq_true, isAlpha_iff, decide_eq_true_eq] at h
  rcases h with h | rfl
  · omega
  · decide

theorem userAction_of_ne {line : Nat} (h : c ≠ '\n') :
    traceScanner.userAction line (c :: text) = line := by
  simp [traceScanner, h]

theorem first_of_matches {p : Flex.Pattern Char} (h : p.Matches text) :
    ∃ c text', text = c :: text' ∧ p.first c = true := by
  cases text with
  | nil => simp [Flex.Pattern.Matches, Flex.Pattern.matchLength, Flex.matchHead] at h
  | cons c text =>
    refine ⟨c, text, rfl, ?_⟩
    by_contra hc
    rw [Bool.not_eq_true] at hc
    rw [Flex.Pattern.Matches, Flex.Pattern.matchLength_of_first hc] at h
    cases h

theorem matchLength_lit_of_ne (h : c ≠ d) (s : Str) :
    (TracePattern.lit [d]).matchLength (c :: s) = none :=
  Flex.Pattern.matchLength_of_first (decide_eq_false h)

theorem matchLength_any_of_ne (h : c ≠ '\n') (s : Str) :
    TracePattern.any.matchLength (c :: s) = some 1 := by
  simp [TracePattern.any, Flex.Pattern.matchLength, Flex.matchHead, h]

section DirectiveTexts

variable {text s : Str} {c : Char}

theorem scan_matched {tok : Str → Token}
    (hlongest : Flex.longest (traceScanner.rules .directive) (c :: (text ++ s)) =
      some ((c :: text).length, fun yytext => .token (tok yytext) .directive))
    (hc : c ≠ '\n') (line : Nat) :
    scan .directive line (c :: text ++ s) =
      .token line (tok (c :: text)) .directive (scan .directive line s) := by
  have hscan := traceScanner.scan_token hlongest rfl line
  rw [← List.cons_append, List.take_left, List.drop_left, userAction_of_ne hc] at hscan
  exact hscan

theorem scan_integernz (h : TracePattern.integernz.Matches text)
    (hs : ∀ c ∈ s.head?, isDigit c = false) (line : Nat) :
    scan .directive line (text ++ s) =
      .token line (.number text) .directive (scan .directive line s) := by
  have hlen := h.append rfl hs
  obtain ⟨c, text, rfl, hc⟩ := first_of_matches h
  have hne : ∀ d, isDigitNz d = false → c ≠ d := fun d => ne_of_class hc
  have hlit : ∀ d, isDigitNz d = false →
      (TracePattern.lit [d]).matchLength (c :: (text ++ s)) = none :=
    fun d hd => matchLength_lit_of_ne (hne d hd) _
  have hid : TracePattern.id.matchLength (c :: (text ++ s)) = none := by
    apply Flex.Pattern.matchLength_of_first
    rw [Bool.eq_false_iff]
    intro hid
    exact Bool.eq_false_iff.mp (isDigitNz_eq_false_of_isIdStart hid) hc
  have hpath : TracePattern.path.matchLength (c :: (text ++ s)) = none :=
    Flex.Pattern.matchLength_of_first (decide_eq_false (hne '/' (by decide)))
  have hany := matchLength_any_of_ne (hne '\n' (by decide)) (text ++ s)
  apply scan_matched _ (hne '\n' (by decide))
  rw [List.cons_append] at hlen
  simp [traceScanner, directiveRules, Flex.longest, hlen, hid, hpath, hany,
    hlit '0' (by decide), hlit '-' (by decide), hlit ',' (by decide), hlit ':' (by decide),
    hlit '\n' (by decide)]

theorem scan_number (h : IsNumber text) (hs : ∀ c ∈ s.head?, isDigit c = false) (line : Nat) :
    scan .directive line (text ++ s) =
      .token line (.number text) .directive (scan .directive line s) := by
  rcases h with rfl | h
  · exact scan_matched rfl (by decide) line
  · exact scan_integernz h hs line

theorem scan_id (h : IsId text) (hs : ∀ c ∈ s.head?, isIdChar c = false) (line : Nat) :
    scan .directive line (text ++ s) =
      .token line (.id text) .directive (scan .directive line s) := by
  have hlen := h.append rfl hs
  obtain ⟨c, text, rfl, hc⟩ := first_of_matches h
  have hne : ∀ d, isIdStart d = false → c ≠ d := fun d => ne_of_class hc
  have hlit : ∀ d, isIdStart d = false →
      (TracePattern.lit [d]).matchLength (c :: (text ++ s)) = none :=
    fun d hd => matchLength_lit_of_ne (hne d hd) _
  have hnum : TracePattern.integernz.matchLength (c :: (text ++ s)) = none :=
    Flex.Pattern.matchLength_of_first (isDigitNz_eq_false_of_isIdStart hc)
  have hpath : TracePattern.path.matchLength (c :: (text ++ s)) = none :=
    Flex.Pattern.matchLength_of_first (decide_eq_false (hne '/' (by decide)))
  have hany := matchLength_any_of_ne (hne '\n' (by decide)) (text ++ s)
  apply scan_matched _ (hne '\n' (by decide))
  rw [List.cons_append] at hlen
  simp [traceScanner, directiveRules, Flex.longest, hlen, hnum, hpath, hany,
    hlit '0' (by decide), hlit '-' (by decide), hlit ',' (by decide), hlit ':' (by decide),
    hlit '\n' (by decide)]

theorem scan_path (h : IsPath text) (hs : ∀ c ∈ s.head?, isPathChar c = false) (line : Nat) :
    scan .directive line (text ++ s) =
      .token line (.path text) .directive (scan .directive line s) := by
  have hlen := h.append rfl hs
  obtain ⟨c, text, rfl, hc⟩ := first_of_matches h
  have hslash : c = '/' := by simpa [TracePattern.path] using hc
  subst hslash
  apply scan_matched _ (by decide)
  have hnum : TracePattern.integernz.matchLength ('/' :: (text ++ s)) = none := rfl
  have hid : TracePattern.id.matchLength ('/' :: (text ++ s)) = none := rfl
  have hlit : ∀ d, '/' ≠ d →
      (TracePattern.lit [d]).matchLength ('/' :: (text ++ s)) = none :=
    fun d hd => matchLength_lit_of_ne hd _
  have hany := matchLength_any_of_ne (c := '/') (by decide) (text ++ s)
  rw [List.cons_append] at hlen
  simp [traceScanner, directiveRules, Flex.longest, hlen, hnum, hid, hany,
    hlit '0' (by decide), hlit '-' (by decide), hlit ',' (by decide), hlit ':' (by decide),
    hlit '\n' (by decide)]

end DirectiveTexts

/-- The text of a token matches the pattern of its rule. -/
def Token.WellFormed : Token → Prop
  | .number text => IsNumber text
  | .id text => IsId text
  | .path text => IsPath text
  | _ => True

theorem scan_wellFormed (sc : StartCondition) (line : Nat) (s : Str) :
    (scan sc line s).All Token.WellFormed := by
  apply Flex.Scanner.scan_all
  intro sc p act hrule text hmatch t next hact
  cases sc with
  | initial =>
    simp only [traceScanner, initialRules, List.mem_append, List.mem_map, List.mem_cons,
      Prod.mk.injEq, List.not_mem_nil, or_false] at hrule
    rcases hrule with ⟨k, -, rfl, rfl⟩ | ⟨rfl, rfl⟩ | ⟨rfl, rfl⟩ | ⟨rfl, rfl⟩
    all_goals cases hact
    trivial
  | directive =>
    simp only [traceScanner, directiveRules, List.mem_cons, Prod.mk.injEq,
      List.not_mem_nil, or_false] at hrule
    rcases hrule with ⟨rfl, rfl⟩ | ⟨rfl, rfl⟩ | ⟨rfl, rfl⟩ | ⟨rfl, rfl⟩ | ⟨rfl, rfl⟩ |
      ⟨rfl, rfl⟩ | ⟨rfl, rfl⟩ | ⟨rfl, rfl⟩ | ⟨rfl, rfl⟩
    all_goals cases hact
    · obtain ⟨-, htext⟩ := Flex.Pattern.lit_matchLength hmatch
      rw [List.take_length] at htext
      exact Or.inl htext
    · exact Or.inr hmatch
    · trivial
    · trivial
    · trivial
    · exact hmatch
    · exact hmatch

theorem scan_directive_first (hc : c ≠ '\n') (line : Nat) (s : Str) :
    (∃ what, scan .directive line (c :: s) = .error line what .directive) ∨
    ∃ t rest, scan .directive line (c :: s) = .token line t .directive rest ∧
      (∀ k, t ≠ .key k) ∧ (t = .colon → c = ':') := by
  rcases hlongest : Flex.longest (traceScanner.rules .directive) (c :: s) with _ | ⟨n, act⟩
  · left
    refine ⟨traceScanner.jammed, ?_⟩
    rw [scan, Flex.Scanner.scan, hlongest]
  · obtain ⟨p, hrule, hlen⟩ := Flex.longest_eq_some hlongest
    simp only [traceScanner, directiveRules, List.mem_cons, Prod.mk.injEq,
      List.not_mem_nil, or_false] at hrule
    rcases hrule with ⟨rfl, rfl⟩ | ⟨rfl, rfl⟩ | ⟨rfl, rfl⟩ | ⟨rfl, rfl⟩ | ⟨rfl, rfl⟩ |
      ⟨rfl, rfl⟩ | ⟨rfl, rfl⟩ | ⟨rfl, rfl⟩ | ⟨rfl, rfl⟩
    case inr.inr.inr.inr.inr.inr.inr.inl =>
      rw [matchLength_lit_of_ne hc] at hlen
      cases hlen
    case inr.inr.inr.inr.inr.inr.inr.inr =>
      exact Or.inl ⟨_, traceScanner.scan_error hlongest rfl line⟩
    case inr.inr.inr.inr.inl =>
      refine Or.inr ⟨_, _, traceScanner.scan_token hlongest rfl line, ?_, ?_⟩
      · simp
      · intro _
        by_contra hne
        rw [matchLength_lit_of_ne hne] at hlen
        cases hlen
    all_goals
      refine Or.inr ⟨_, _, traceScanner.scan_token hlongest rfl line, ?_, ?_⟩
      · simp
      · simp

theorem scan_initial_first (hc : c ≠ '\n') (line : Nat) (s : Str) :
    (∃ what, scan .initial line (c :: s) = .error line what .initial) ∨
    ∃ k s', c :: s = k.text ++ s' ∧
      scan .initial line (c :: s) =
        .token line (.key k) .directive (scan .directive line s') := by
  rcases hlongest : Flex.longest (traceScanner.rules .initial) (c :: s) with _ | ⟨n, act⟩
  · left
    refine ⟨traceScanner.jammed, ?_⟩
    rw [scan, Flex.Scanner.scan, hlongest]
  · obtain ⟨p, hrule, hlen⟩ := Flex.longest_eq_some hlongest
    simp only [traceScanner, initialRules, List.mem_append, List.mem_map, List.mem_cons,
      Prod.mk.injEq, List.not_mem_nil, or_false] at hrule
    rcases hrule with ⟨k, -, rfl, rfl⟩ | ⟨rfl, rfl⟩ | ⟨rfl, rfl⟩ | ⟨rfl, rfl⟩
    · right
      have htake : (c :: s).take n = k.text := by
        cases k <;> exact (Flex.Pattern.lit_matchLength hlen).2
      refine ⟨k, (c :: s).drop n, ?_, ?_⟩
      · rw [← htake, List.take_append_drop]
      · have hscan := traceScanner.scan_token hlongest rfl line
        rw [htake] at hscan
        cases k <;> exact hscan
    · rw [matchLength_lit_of_ne hc] at hlen
      cases hlen
    · exact Or.inl ⟨_, traceScanner.scan_error hlongest rfl line⟩
    · exact Or.inl ⟨_, traceScanner.scan_error hlongest rfl line⟩

end Coverage
end KedrAux
