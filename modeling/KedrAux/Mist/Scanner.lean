import KedrAux.Lib.Flex
import KedrAux.Mist.ParamSet

/-!
# Scanner of templates

The rules of `mist_scanner_base.l` and the texts in quotes.  The text of a string in quotes
(`yylval->str`) is collected in the start condition `STRING` over many matches, so it is a
part of the state here.  Of a location only its end is kept.

The rules for the end of the file are left out: the scan ends with the state there, which is
an error in every start condition but `INITIAL`.
-/

namespace KedrAux
namespace Mist

inductive StartCondition where
  | initial
  | comments
  | directive
  | string
deriving DecidableEq

/-- Tokens of the parser, with the texts of those that have a value. -/
inductive Token where
  | beginMarker
  | endMarker
  | ifKeyword
  | endifKeyword
  | elseKeyword
  | elseifKeyword
  | withKeyword
  | endwithKeyword
  | id (str : Str)
  | text (str : Str)
  | unknown (str : Str)
  | dot
  | colon
deriving DecidableEq

/-- The start condition, the stack of the outer ones and the string that is collected. -/
structure ScanState where
  start : StartCondition
  stack : List StartCondition
  str : Str
deriving DecidableEq

def ScanState.begin (state : ScanState) (start : StartCondition) : ScanState :=
  { state with start := start }

def ScanState.pushState (state : ScanState) (start : StartCondition) : ScanState :=
  { state with start := start, stack := state.start :: state.stack }

/-- `yy_pop_state`; nothing can be popped from the empty stack. -/
def ScanState.popState (state : ScanState) : Option ScanState :=
  match state.stack with
  | [] => none
  | start :: stack => some { state with start := start, stack := stack }

def ScanState.append (state : ScanState) (text : Str) : ScanState :=
  { state with str := state.str ++ text }

structure Position where
  line : Nat
  column : Nat
deriving DecidableEq

/-- `YY_USER_ACTION`, for the end of the location. -/
def Position.advance (pos : Position) (yytext : Str) : Position :=
  if yytext.head? ≠ some '\n' then { pos with column := pos.column + yytext.length }
  else { line := pos.line + yytext.length, column := 1 }

namespace MistPattern

/-- `[a-zA-Z_]`. -/
def isIdStart (c : Char) : Bool :=
  ('a' ≤ c && c ≤ 'z') || ('A' ≤ c && c ≤ 'Z') || c = '_'

/-- `[a-zA-Z_0-9]`. -/
def isIdChar (c : Char) : Bool :=
  isIdStart c || ('0' ≤ c && c ≤ '9')

/-- `[^\"\\\n]`. -/
def isPlain (c : Char) : Bool :=
  c ≠ '"' && c ≠ '\\' && c ≠ '\n'

/-- `{id}`. -/
def id : Flex.Pattern Char := ⟨isIdStart, [], some isIdChar⟩

def some (p : Char → Bool) : Flex.Pattern Char := ⟨p, [], Option.some p⟩

def any : Flex.Pattern Char := ⟨fun c => c ≠ '\n', [], none⟩

def lit : Str → Flex.Pattern Char
  | [] => any
  | c :: text => .lit c text

end MistPattern

abbrev ScanOutcome := Flex.Outcome ScanState Token Str

abbrev ScanRule := Flex.Pattern Char × (Str → ScanOutcome)

/-- The fatal error of `yy_pop_state`. -/
def stackUnderflow : Str :=
  "start-condition stack underflow".toList

def commentsRules (state : ScanState) : List ScanRule :=
  [ (MistPattern.lit ['$', '>'], fun _ =>
      match state.popState with
      | none => .error stackUnderflow
      | some outer => .skip outer),
    (MistPattern.lit ['$'], fun _ => .skip state),
    (MistPattern.lit ['\n'], fun _ => .skip state),
    (MistPattern.some fun c => c ≠ '$' && c ≠ '\n', fun _ => .skip state) ]

def stringRules (state : ScanState) : List ScanRule :=
  [ (MistPattern.lit ['"'], fun _ =>
      match state.popState with
      | none => .error stackUnderflow
      | some outer =>
        if outer.start = .directive then .token (.text outer.str) outer
        else .error "Unexpected state while parsing string is finished.".toList),
    (MistPattern.lit ['\\', '"'], fun _ => .skip (state.append ['"'])),
    (MistPattern.lit ['\\', '\\'], fun _ => .skip (state.append ['\\'])),
    (MistPattern.lit ['\\', 'n'], fun _ => .skip (state.append ['\n'])),
    (MistPattern.lit ['\\'], fun _ => .skip (state.append ['\\'])),
    (MistPattern.lit ['\n'], fun yytext => .skip (state.append yytext)),
    (MistPattern.some MistPattern.isPlain, fun yytext => .skip (state.append yytext)) ]

def initialRules (state : ScanState) : List ScanRule :=
  [ (MistPattern.lit ['<', '$', '!'], fun _ => .skip (state.pushState .comments)),
    (MistPattern.lit ['<', '$'], fun _ => .token .beginMarker (state.begin .directive)),
    (MistPattern.lit ['<'], fun yytext => .token (.text yytext) state),
    (MistPattern.some fun c => c ≠ '<' && c ≠ '\n', fun yytext => .token (.text yytext) state),
    (MistPattern.lit ['\n'], fun yytext => .token (.text yytext) state) ]

def directiveRules (state : ScanState) : List ScanRule :=
  [ (MistPattern.some fun c => c = ' ' || c = '\t', fun _ => .skip state),
    (MistPattern.some fun c => c = '\n', fun _ => .skip state),
    (MistPattern.lit ['$', '>'], fun _ => .token .endMarker (state.begin .initial)),
    (MistPattern.lit ['i', 'f'], fun _ => .token .ifKeyword state),
    (MistPattern.lit ['e', 'n', 'd', 'i', 'f'], fun _ => .token .endifKeyword state),
    (MistPattern.lit ['e', 'l', 's', 'e'], fun _ => .token .elseKeyword state),
    (MistPattern.lit ['e', 'l', 's', 'e', 'i', 'f'], fun _ => .token .elseifKeyword state),
    (MistPattern.lit ['w', 'i', 't', 'h'], fun _ => .token .withKeyword state),
    (MistPattern.lit ['e', 'n', 'd', 'w', 'i', 't', 'h'], fun _ => .token .endwithKeyword state),
    (MistPattern.id, fun yytext => .token (.id yytext) state),
    (MistPattern.lit ['.'], fun _ => .token .dot state),
    (MistPattern.lit [':'], fun _ => .token .colon state),
    (MistPattern.lit ['"'], fun _ => .skip { state.pushState .string with str := [] }),
    (MistPattern.any, fun yytext => .token (.unknown (yytext.take 1)) state) ]

def mistScanner : Flex.Scanner Char Position ScanState Token Str where
  rules state :=
    match state.start with
    | .initial => initialRules state
    | .comments => commentsRules state
    | .directive => directiveRules state
    | .string => stringRules state
  userAction := Position.advance
  jammed := "flex scanner jammed".toList

/-- What successive calls of `yylex` return. -/
abbrev Lexemes := Flex.Lexemes Position ScanState Token Str

def scan (state : ScanState) (pos : Position) (s : Str) : Lexemes :=
  mistScanner.scan 0 state pos s

/-- The state inside quotes, after the opening ones in a directive. -/
def inQuotes (stack : List StartCondition) (str : Str) : ScanState :=
  ⟨.string, .directive :: stack, str⟩

section Quotes

variable (stack : List StartCondition) (acc : Str) (pos : Position) (s : Str)

theorem scan_opening (acc : Str) :
    scan ⟨.directive, stack, acc⟩ pos ('"' :: s) =
      scan (inQuotes stack []) (pos.advance ['"']) s := by
  have hlongest : Flex.longest (mistScanner.rules ⟨.directive, stack, acc⟩) ('"' :: s) =
      some (1, fun _ => .skip (inQuotes stack [])) := rfl
  exact mistScanner.scan_skip hlongest rfl pos

theorem scan_closing :
    scan (inQuotes stack acc) pos ('"' :: s) =
      .token pos (.text acc) ⟨.directive, stack, acc⟩
        (scan ⟨.directive, stack, acc⟩ (pos.advance ['"']) s) := by
  have hlongest : Flex.longest (mistScanner.rules (inQuotes stack acc)) ('"' :: s) =
      some (1, fun _ => .token (.text acc) ⟨.directive, stack, acc⟩) := rfl
  exact mistScanner.scan_token hlongest rfl pos

/-- The escape sequences with a rule of their own, and what they stand for. -/
def escapes : List (Char × Char) :=
  [('"', '"'), ('\\', '\\'), ('n', '\n')]

theorem scan_escape {c a : Char} (h : (c, a) ∈ escapes) :
    scan (inQuotes stack acc) pos ('\\' :: c :: s) =
      scan (inQuotes stack (acc ++ [a])) (pos.advance ['\\', c]) s := by
  have hlongest : Flex.longest (mistScanner.rules (inQuotes stack acc)) ('\\' :: c :: s) =
      some (2, fun _ => .skip (inQuotes stack (acc ++ [a]))) := by
    simp only [escapes, List.mem_cons, Prod.mk.injEq, List.not_mem_nil, or_false] at h
    rcases h with ⟨rfl, rfl⟩ | ⟨rfl, rfl⟩ | ⟨rfl, rfl⟩ <;> rfl
  exact mistScanner.scan_skip hlongest rfl pos

theorem scan_backslash_t :
    scan (inQuotes stack acc) pos ('\\' :: 't' :: s) =
      scan (inQuotes stack (acc ++ ['\\'])) (pos.advance ['\\']) ('t' :: s) := by
  have hlongest : Flex.longest (mistScanner.rules (inQuotes stack acc)) ('\\' :: 't' :: s) =
      some (1, fun _ => .skip (inQuotes stack (acc ++ ['\\']))) := rfl
  exact mistScanner.scan_skip hlongest rfl pos

end Quotes

end Mist
end KedrAux
