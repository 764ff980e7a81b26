import KedrAux.Coverage.TraceScanner

/-!
# Parser of trace files

The grammar of `trace_parser_base.yy` as the automaton that bison generates for
it.  A rule whose right-hand side is complete is reduced at once when nothing
else can follow; otherwise the next token is read first and the rule is the
default reduction.  The latter concerns two rules: a `TN:` without a name, and
the end of a test, which is noticed by a token other than `SF`.

The scanner is a part of `TraceParser` and its start condition is kept from one
call of `parse` to the next one.
-/

namespace KedrAux
namespace Coverage

inductive Directive where
  | tn (name : Str)
  | sf (path : Str)
  | eor
  | fnf (total : Str)
  | fnh (total : Str)
  | fn (line name : Str)
  | fnda (counter name : Str)
  | da (line counter : Str)
  | daNegative (line counter : Str)
  | lf (total : Str)
  | lh (total : Str)
  | brda (line block branch counter : Str)
  | brdaNotCovered (line block branch : Str)
  | brf (total : Str)
  | brh (total : Str)
deriving DecidableEq

inductive Event where
  | testStart (testName : Str) (traceLine : Nat)
  | testEnd (traceLine : Nat)
  | sourceStart (sourcePath : Str) (traceLine : Nat)
  | sourceEnd (traceLine : Nat)
  | function (funcName : Str) (funcLine : Int) (traceLine : Nat)
  | functionCounter (funcName : Str) (counter : Int) (traceLine : Nat)
  | functionsTotal (total : Int) (traceLine : Nat)
  | functionsTotalHit (total : Int) (traceLine : Nat)
  | branchCoverage (branchLine blockNumber branchNumber counter : Int) (traceLine : Nat)
  | branchNotCovered (branchLine blockNumber branchNumber : Int) (traceLine : Nat)
  | branchesTotal (total : Int) (traceLine : Nat)
  | branchesTotalHit (total : Int) (traceLine : Nat)
  | lineCounter (line counter : Int) (traceLine : Nat)
  | linesTotal (total : Int) (traceLine : Nat)
  | linesTotalHit (total : Int) (traceLine : Nat)
deriving DecidableEq

/-- A number token passed as `int`. -/
@[irreducible] def toInt (text : Str) : Int :=
  Int.bmod (strToLong text) (2 ^ 32)

/-- A number token passed as `counter_t`. -/
@[irreducible] def toLong (text : Str) : Int :=
  Int.bmod (strToLong text) (2 ^ 64)

/-- The action of the rule of a directive; `line` is where the directive begins. -/
def Directive.event (line : Nat) : Directive → Event
  | .tn name => .testStart name line
  | .sf path => .sourceStart path line
  | .eor => .sourceEnd line
  | .fnf total => .functionsTotal (toInt total) line
  | .fnh total => .functionsTotalHit (toInt total) line
  | .fn l name => .function name (toInt l) line
  | .fnda counter name => .functionCounter name (toLong counter) line
  | .da l counter => .lineCounter (toInt l) (toLong counter) line
  | .daNegative l _ => .lineCounter (toInt l) 0 line
  | .lf total => .linesTotal (toInt total) line
  | .lh total => .linesTotalHit (toInt total) line
  | .brda l block branch counter =>
    .branchCoverage (toInt l) (toInt block) (toInt branch) (toLong counter) line
  | .brdaNotCovered l block branch =>
    .branchNotCovered (toInt l) (toInt block) (toInt branch) line
  | .brf total => .branchesTotal (toInt total) line
  | .brh total => .branchesTotalHit (toInt total) line

inductive TokenKind where
  | key | number | id | path | minus | comma | colon
deriving DecidableEq

def Token.kind : Token → TokenKind
  | .key _ => .key
  | .number _ => .number
  | .id _ => .id
  | .path _ => .path
  | .minus => .minus
  | .comma => .comma
  | .colon => .colon

/-- What may follow the keyword of a directive that has to have parameters. -/
def Key.parameters : Key → List (List TokenKind)
  | .tn | .eor => []
  | .sf => [[.colon, .path]]
  | .fnf | .fnh | .lf | .lh | .brf | .brh => [[.colon, .number]]
  | .fn | .fnda => [[.colon, .number, .comma, .id]]
  | .da =>
    [ [.colon, .number, .comma, .number],
      [.colon, .number, .comma, .minus, .number] ]
  | .brda =>
    [ [.colon, .number, .comma, .number, .comma, .number, .comma, .number],
      [.colon, .number, .comma, .number, .comma, .number, .comma, .minus] ]

/-- The directive that is complete with the given tokens after its keyword. -/
def reduceDirective : Key → List Token → Option Directive
  | .sf, [.colon, .path p] => some (.sf p)
  | .fnf, [.colon, .number n] => some (.fnf n)
  | .fnh, [.colon, .number n] => some (.fnh n)
  | .fn, [.colon, .number l, .comma, .id name] => some (.fn l name)
  | .fnda, [.colon, .number c, .comma, .id name] => some (.fnda c name)
  | .da, [.colon, .number l, .comma, .number c] => some (.da l c)
  | .da, [.colon, .number l, .comma, .minus, .number c] => some (.daNegative l c)
  | .lf, [.colon, .number n] => some (.lf n)
  | .lh, [.colon, .number n] => some (.lh n)
  | .brda, [.colon, .number l, .comma, .number b, .comma, .number n, .comma, .number c] =>
    some (.brda l b n c)
  | .brda, [.colon, .number l, .comma, .number b, .comma, .number n, .comma, .minus] =>
    some (.brdaNotCovered l b n)
  | .brf, [.colon, .number n] => some (.brf n)
  | .brh, [.colon, .number n] => some (.brh n)
  | _, _ => none

inductive Reduction where
  | directive (d : Directive) (line : Nat)
  | test (endLine : Nat)
deriving DecidableEq

def Reduction.event : Reduction → Event
  | .directive d line => d.event line
  | .test endLine => .testEnd endLine

inductive ParserState where
  /-- after `trace` -/
  | trace
  /-- after `KEY_TN` -/
  | tnKey (line : Nat)
  /-- after `KEY_TN ':'` -/
  | tnColon (line endLine : Nat)
  /-- after `test_noend` -/
  | test (endLine : Nat)
  /-- inside of a directive that has to have parameters -/
  | directive (k : Key) (line : Nat) (seen : List Token)
  /-- after `source_noend` -/
  | source
deriving DecidableEq

/-- What the parser does after the reductions made for a token. -/
inductive Next where
  | goto (st : ParserState)
  | accept
  | syntaxError
deriving DecidableEq

/-- A token, or the end of the input, after `trace`. -/
def stepTrace (line : Nat) : Option Token → Next
  | some (.key .tn) => .goto (.tnKey line)
  | none => .accept
  | some _ => .syntaxError

/-- A token, or the end of the input, after `test_noend`. -/
def stepTest (endLine line : Nat) : Option Token → List Reduction × Next
  | some (.key .sf) => ([], .goto (.directive .sf line []))
  | sym => ([.test endLine], stepTrace line sym)

def stepDirective (k : Key) (keyLine : Nat) (seen : List Token) : List Reduction × Next :=
  match reduceDirective k seen with
  | some d => ([.directive d keyLine], .goto .source)
  | none =>
    if k.parameters.any fun rhs => (seen.map Token.kind).isPrefixOf rhs then
      ([], .goto (.directive k keyLine seen))
    else ([], .syntaxError)

/-- The reductions made for a token, or for the end of the input, and the next state. -/
def step (line : Nat) : ParserState → Option Token → List Reduction × Next
  | .trace, sym => ([], stepTrace line sym)
  | .tnKey keyLine, some .colon => ([], .goto (.tnColon keyLine line))
  | .tnKey _, _ => ([], .syntaxError)
  | .tnColon keyLine _, some (.id name) =>
    ([.directive (.tn name) keyLine], .goto (.test line))
  | .tnColon keyLine endLine, sym =>
    let (reductions, next) := stepTest endLine line sym
    (.directive (.tn []) keyLine :: reductions, next)
  | .test endLine, sym => stepTest endLine line sym
  | .directive k keyLine seen, some t => stepDirective k keyLine (seen ++ [t])
  | .directive _ _ _, none => ([], .syntaxError)
  | .source, some (.key .eor) => ([.directive .eor line], .goto (.test line))
  | .source, some (.key .tn) => ([], .syntaxError)
  | .source, some (.key .sf) => ([], .syntaxError)
  | .source, some (.key k) => ([], .goto (.directive k line []))
  | .source, _ => ([], .syntaxError)

/-- What is reported before `Trace parsing failed` is thrown. -/
structure ParseError where
  line : Nat
  what : Str
deriving DecidableEq

/-- Everything that a call of the parser does when no action throws. -/
structure ParseRun where
  /-- the reductions, each with the start condition in which it is made -/
  reductions : List (Reduction × StartCondition)
  result : Except ParseError Unit
  /-- the start condition that is left -/
  after : StartCondition

def ParseRun.prepend (reductions : List Reduction) (sc : StartCondition)
    (run : ParseRun) : ParseRun :=
  { run with reductions := reductions.map (fun r => (r, sc)) ++ run.reductions }

/-- The run ends at a token, or at the end of the input. -/
def ParseRun.stop (line : Nat) (sc : StartCondition) : Next → ParseRun
  | .accept => ⟨[], .ok (), sc⟩
  | _ => ⟨[], .error ⟨line, "syntax error".toList⟩, sc⟩

def parseLexemes : ParserState → Lexemes → ParseRun
  | _, .error line what after => ⟨[], .error ⟨line, what⟩, after⟩
  | st, .eof line after =>
    let (reductions, next) := step line st none
    (ParseRun.stop line after next).prepend reductions after
  | st, .token line t after rest =>
    match step line st (some t) with
    | (reductions, .goto st') => (parseLexemes st' rest).prepend reductions after
    | (reductions, next) => (ParseRun.stop line after next).prepend reductions after

/-- `TraceParser`; what is kept between calls is the start condition of its scanner. -/
structure TraceParser where
  startCondition : StartCondition
deriving DecidableEq

def TraceParser.new : TraceParser := ⟨.initial⟩

/--
An event processor as the parser sees it: whether the last of the calls made so
far returns, or throws an exception.
-/
abbrev EventProcessor := List Event → Bool

/-- How a call of `TraceParser::parse` ends. -/
inductive ParseOutcome where
  | accepted
  | failed (e : ParseError)
  | interrupted
deriving DecidableEq

/-- The calls made by `TraceParser::parse` and the parser after it. -/
structure ParseResult where
  events : List Event
  outcome : ParseOutcome
  parser : TraceParser

/-- Make the calls of a run until one of them throws. -/
def deliver (eventProcessor : EventProcessor) (result : Except ParseError Unit)
    (after : StartCondition) :
    (made : List Event) → List (Reduction × StartCondition) → ParseResult
  | made, [] =>
    ⟨made, match result with | .ok _ => .accepted | .error e => .failed e, ⟨after⟩⟩
  | made, (r, sc) :: reductions =>
    let made := made ++ [r.event]
    if eventProcessor made then deliver eventProcessor result after made reductions
    else ⟨made, .interrupted, ⟨sc⟩⟩

/-- The run of a parser on a text; `setStream` does not touch the start condition. -/
def TraceParser.run (parser : TraceParser) (is : Str) : ParseRun :=
  parseLexemes .trace (scan parser.startCondition 1 is)

def TraceParser.parse (parser : TraceParser) (is : Str)
    (eventProcessor : EventProcessor) : ParseResult :=
  let run := parser.run is
  deliver eventProcessor run.result run.after [] run.reductions

def ParseResult.accepted (r : ParseResult) : Bool :=
  r.outcome = .accepted

/-- A parser that was used for a sequence of texts, each with its event processor. -/
def TraceParser.reused (history : List (Str × EventProcessor)) : TraceParser :=
  history.foldl (fun parser use => (parser.parse use.1 use.2).parser) .new

/-- The texts come from tokens of the kinds in the grammar. -/
def Directive.WellFormed : Directive → Prop
  | .tn name => name = [] ∨ IsId name
  | .sf path => IsPath path
  | .eor => True
  | .fnf total | .fnh total | .lf total | .lh total | .brf total | .brh total =>
    IsNumber total
  | .fn line name => IsNumber line ∧ IsId name
  | .fnda counter name => IsNumber counter ∧ IsId name
  | .da line counter => IsNumber line ∧ IsNumber counter
  | .daNegative line counter => IsNumber line ∧ IsNumber counter
  | .brda line block branch counter =>
    IsNumber line ∧ IsNumber block ∧ IsNumber branch ∧ IsNumber counter
  | .brdaNotCovered line block branch => IsNumber line ∧ IsNumber block ∧ IsNumber branch

def Reduction.WellFormed : Reduction → Prop
  | .directive d _ => d.WellFormed
  | .test _ => True

theorem reduceDirective_wellFormed {k : Key} {seen : List Token} {d : Directive}
    (hseen : ∀ t ∈ seen, t.WellFormed)
    (h : reduceDirective k seen = some d) :
    d.WellFormed := by
  unfold reduceDirective at h
  split at h
  all_goals cases h
  all_goals
    simp only [List.mem_cons, List.not_mem_nil, or_false, forall_eq_or_imp, forall_eq] at hseen
    simp_all [Token.WellFormed, Directive.WellFormed]

/-- The tokens that the parser has read of an unfinished directive. -/
def ParserState.seen : ParserState → List Token
  | .directive _ _ seen => seen
  | _ => []

theorem stepTrace_seen {line : Nat} {sym : Option Token} {st : ParserState}
    (h : stepTrace line sym = .goto st) :
    st.seen = [] := by
  unfold stepTrace at h
  split at h
  all_goals cases h
  rfl

theorem stepTest_spec {endLine line : Nat} {sym : Option Token} :
    (∀ r ∈ (stepTest endLine line sym).1, r.WellFormed) ∧
    ∀ st, (stepTest endLine line sym).2 = .goto st → st.seen = [] := by
  unfold stepTest
  split
  · refine ⟨by simp, ?_⟩
    rintro st h
    cases h
    rfl
  · exact ⟨by simp [Reduction.WellFormed], fun st => stepTrace_seen⟩

theorem stepDirective_wellFormed {k : Key} {keyLine : Nat} {seen : List Token}
    (hseen : ∀ t ∈ seen, t.WellFormed) :
    (∀ r ∈ (stepDirective k keyLine seen).1, r.WellFormed) ∧
    ∀ st, (stepDirective k keyLine seen).2 = .goto st → ∀ t ∈ st.seen, t.WellFormed := by
  unfold stepDirective
  split
  · rename_i d hd
    refine ⟨by simpa [Reduction.WellFormed] using reduceDirective_wellFormed hseen hd, ?_⟩
    rintro st h
    cases h
    simp [ParserState.seen]
  · split_ifs
    · refine ⟨by simp, ?_⟩
      rintro st h
      cases h
      exact hseen
    · exact ⟨by simp, by simp⟩

/-- A step of the parser keeps the paths of tokens well-formed. -/
theorem step_wellFormed (line : Nat) {st : ParserState} (hst : ∀ t ∈ st.seen, t.WellFormed)
    (sym : Option Token) (hsym : ∀ t ∈ sym, t.WellFormed) :
    (∀ r ∈ (step line st sym).1, r.WellFormed) ∧
    ∀ st', (step line st sym).2 = .goto st' → ∀ t ∈ st'.seen, t.WellFormed := by
  have htest : ∀ endLine, (∀ r ∈ (stepTest endLine line sym).1, r.WellFormed) ∧
      ∀ st', (stepTest endLine line sym).2 = .goto st' →
        ∀ t ∈ st'.seen, t.WellFormed := by
    intro endLine
    refine ⟨stepTest_spec.1, ?_⟩
    intro st' h
    rw [stepTest_spec.2 st' h]
    simp
  unfold step
  split
  · refine ⟨by simp, ?_⟩
    intro st' h
    rw [stepTrace_seen h]
    simp
  · exact ⟨by simp, by rintro st' h; cases h; simp [ParserState.seen]⟩
  · exact ⟨by simp, by simp⟩
  · rename_i name
    refine ⟨?_, by rintro st' h; cases h; simp [ParserState.seen]⟩
    have hname : IsId name := hsym (.id name) rfl
    simp [Reduction.WellFormed, Directive.WellFormed, hname]
  · rename_i keyLine endLine _
    refine ⟨?_, (htest endLine).2⟩
    intro r hr
    rcases List.mem_cons.mp hr with rfl | hr
    · exact Or.inl rfl
    · exact (htest endLine).1 r hr
  · exact htest _
  · rename_i k keyLine seen t
    apply stepDirective_wellFormed
    intro t' ht'
    rcases List.mem_append.mp ht' with ht' | ht'
    · exact hst t' ht'
    · rw [List.mem_singleton.mp ht']
      exact hsym t rfl
  all_goals
    refine ⟨by simp [Reduction.WellFormed, Directive.WellFormed], ?_⟩
    rintro st' h
    cases h
    try simp [ParserState.seen]

variable {run : ParseRun} {c : Char} {s : Str}

theorem mem_prepend {reductions : List Reduction} {sc : StartCondition}
    {r : Reduction × StartCondition} (h : r ∈ (run.prepend reductions sc).reductions) :
    r.1 ∈ reductions ∨ r ∈ run.reductions := by
  rcases List.mem_append.mp h with h | h
  · obtain ⟨r', hr', rfl⟩ := List.mem_map.mp h
    exact Or.inl hr'
  · exact Or.inr h

theorem parseLexemes_wellFormed {lexemes : Lexemes} (hlexemes : lexemes.All Token.WellFormed)
    {st : ParserState} (hst : ∀ t ∈ st.seen, t.WellFormed) :
    ∀ r ∈ (parseLexemes st lexemes).reductions, r.1.WellFormed := by
  have hstop : ∀ line sc next, (ParseRun.stop line sc next).reductions = [] := by
    intro line sc next
    cases next <;> rfl
  induction hlexemes generalizing st with
  | error pos what after => simp [parseLexemes]
  | eof pos after =>
    intro r hr
    rcases mem_prepend hr with hr | hr
    · exact (step_wellFormed pos hst none (by simp)).1 r.1 hr
    · rw [hstop] at hr
      cases hr
  | token pos t after ht hrest ih =>
    have hstep := step_wellFormed pos hst (some t) (by simpa using ht)
    intro r hr
    rw [parseLexemes] at hr
    split at hr
    · rename_i reductions st' hnext
      rw [hnext] at hstep
      rcases mem_prepend hr with hr | hr
      · exact hstep.1 r.1 hr
      · exact ih (hstep.2 st' rfl) r hr
    · rename_i hnext
      rw [hnext] at hstep
      rcases mem_prepend hr with hr | hr
      · exact hstep.1 r.1 hr
      · rw [hstop] at hr
        cases hr

/-- Whatever the text is, the directives that are reduced are well formed. -/
theorem run_wellFormed (parser : TraceParser) (is : Str) :
    ∀ r ∈ (parser.run is).reductions, r.1.WellFormed :=
  parseLexemes_wellFormed (scan_wellFormed parser.startCondition 1 is)
    (by simp [ParserState.seen])

/-- A run that fails before the first event. -/
def ParseRun.FailsAtOnce (run : ParseRun) : Prop :=
  run.reductions = [] ∧ ∃ e, run.result = .error e

theorem ParseRun.FailsAtOnce.deliver (h : run.FailsAtOnce) (eventProcessor : EventProcessor) :
    (deliver eventProcessor run.result run.after [] run.reductions).events = [] ∧
    (deliver eventProcessor run.result run.after [] run.reductions).accepted = false := by
  obtain ⟨hreductions, e, hresult⟩ := h
  rw [hreductions, hresult]
  exact ⟨rfl, rfl⟩

theorem made_prefix_deliver (eventProcessor : EventProcessor) (result : Except ParseError Unit)
    (after : StartCondition) (made : List Event)
    (reductions : List (Reduction × StartCondition)) :
    made <+: (deliver eventProcessor result after made reductions).events := by
  induction reductions generalizing made with
  | nil => exact List.prefix_refl made
  | cons r reductions ih =>
    rw [deliver]
    split_ifs
    · exact (List.prefix_append made [r.1.event]).trans (ih _)
    · exact List.prefix_append made [r.1.event]

/--
The text begins with `TN:`, and what follows does not make the scanner fail
before the parser can see that the directive is complete.
-/
def StartsTest : Str → Bool
  | 'T' :: 'N' :: ':' :: rest =>
    match scan .directive 1 rest with
    | .error _ _ _ => false
    | _ => true
  | _ => false

theorem parse_directive_failsAtOnce (hc : c ≠ '\n') (line : Nat) (s : Str) :
    (parseLexemes .trace (scan .directive line (c :: s))).FailsAtOnce := by
  rcases scan_directive_first hc line s with ⟨what, hscan⟩ | ⟨t, rest, hscan, hkey, -⟩
  · rw [hscan]
    exact ⟨rfl, _, rfl⟩
  · rw [hscan]
    cases t with
    | key k => exact absurd rfl (hkey k)
    | _ => exact ⟨rfl, _, rfl⟩

theorem parse_tnKey_failsAtOnce (keyLine line : Nat) {s : Str} (hs : ∀ rest, s ≠ ':' :: rest) :
    (parseLexemes (.tnKey keyLine) (scan .directive line s)).FailsAtOnce := by
  have herror : ∀ {t} (pos : Nat) (after : StartCondition) (rest : Lexemes), t ≠ .colon →
      (parseLexemes (.tnKey keyLine) (.token pos t after rest)).FailsAtOnce := by
    intro t pos after rest ht
    cases t with
    | colon => exact absurd rfl ht
    | _ => exact ⟨rfl, _, rfl⟩
  -- after a newline the scanner is in `INITIAL`, where a colon is no token
  have hinitial : ∀ (s : Str) (line : Nat),
      (parseLexemes (.tnKey keyLine) (scan .initial line s)).FailsAtOnce := by
    intro s
    induction s with
    | nil => exact fun line => ⟨rfl, _, rfl⟩
    | cons c s ih =>
      intro line
      by_cases hc : c = '\n'
      · rw [hc, scan_newline]
        exact ih (line + 1)
      · rcases scan_initial_first hc line s with ⟨what, hscan⟩ | ⟨k, s', -, hscan⟩
        · rw [hscan]
          exact ⟨rfl, _, rfl⟩
        · rw [hscan]
          exact herror _ _ _ (by simp)
  cases s with
  | nil => exact ⟨rfl, _, rfl⟩
  | cons c s =>
    by_cases hc : c = '\n'
    · rw [hc, scan_newline]
      exact hinitial s (line + 1)
    · rcases scan_directive_first hc line s with ⟨what, hscan⟩ | ⟨t, rest, hscan, -, hcolon⟩
      · rw [hscan]
        exact ⟨rfl, _, rfl⟩
      · rw [hscan]
        apply herror
        intro ht
        exact hs s (by rw [hcolon ht])

theorem parse_initial_failsAtOnce (hc : c ≠ '\n') (hstart : StartsTest (c :: s) = false) :
    (parseLexemes .trace (scan .initial 1 (c :: s))).FailsAtOnce := by
  rcases scan_initial_first hc 1 s with ⟨what, hscan⟩ | ⟨k, s', htext, hscan⟩
  · rw [hscan]
    exact ⟨rfl, _, rfl⟩
  · rw [hscan]
    by_cases hk : k = .tn
    · subst hk
      change (parseLexemes (.tnKey 1) (scan .directive 1 s')).FailsAtOnce
      by_cases hcolon : ∃ rest, s' = ':' :: rest
      · obtain ⟨rest, rfl⟩ := hcolon
        rw [htext] at hstart
        rw [scan_colon]
        change (parseLexemes (.tnColon 1 1) (scan .directive 1 rest)).FailsAtOnce
        simp only [Key.text, List.cons_append, List.nil_append, StartsTest] at hstart
        split at hstart
        · rename_i hscan'
          rw [hscan']
          exact ⟨rfl, _, rfl⟩
        · cases hstart
      · push Not at hcolon
        exact parse_tnKey_failsAtOnce 1 1 hcolon
    · cases k with
      | tn => exact absurd rfl hk
      | _ => exact ⟨rfl, _, rfl⟩

theorem parse_tnColon_reductions (keyLine endLine : Nat) {lexemes : Lexemes}
    (h : ∀ line what after, lexemes ≠ .error line what after) :
    (parseLexemes (.tnColon keyLine endLine) lexemes).reductions ≠ [] := by
  cases lexemes with
  | error line what after => exact absurd rfl (h line what after)
  | eof line after => simp [parseLexemes, step, ParseRun.prepend]
  | token line t after rest =>
    have hstep : (step line (.tnColon keyLine endLine) (some t)).1 ≠ [] := by
      cases t <;> simp [step]
    rw [parseLexemes]
    split
    all_goals
      rename_i hnext
      rw [hnext] at hstep
      simpa [ParseRun.prepend] using fun hnil => absurd hnil hstep

theorem parse_initial_reductions (hstart : StartsTest s = true) :
    (parseLexemes .trace (scan .initial 1 s)).reductions ≠ [] := by
  unfold StartsTest at hstart
  split at hstart
  · rename_i rest
    have hkey : scan .initial 1 ('T' :: 'N' :: ':' :: rest) =
        .token 1 (.key .tn) .directive (scan .directive 1 (':' :: rest)) :=
      scan_key .tn 1 rest
    rw [hkey, scan_colon]
    change (parseLexemes (.tnColon 1 1) (scan .directive 1 rest)).reductions ≠ []
    apply parse_tnColon_reductions
    intro line what after hscan
    rw [hscan] at hstart
    cases hstart
  · cases hstart

theorem parse_events_ne_nil (parser : TraceParser) (h : (parser.run s).reductions ≠ [])
    (eventProcessor : EventProcessor) :
    (parser.parse s eventProcessor).events ≠ [] := by
  unfold TraceParser.parse
  obtain ⟨r, reductions, hr⟩ := List.exists_cons_of_ne_nil h
  simp only [hr, deliver]
  split_ifs
  · intro hnil
    have := made_prefix_deliver eventProcessor (parser.run s).result (parser.run s).after
      ([] ++ [r.1.event]) reductions
    rw [hnil] at this
    simp at this
  · simp

/-- From which start condition a text is parsed matters only if it starts a test. -/
theorem parse_startCondition_iff
    (parser : TraceParser) (s : Str) (eventProcessor : EventProcessor) :
    ((parser.parse s eventProcessor).events =
        (TraceParser.new.parse s eventProcessor).events ∧
      (parser.parse s eventProcessor).accepted =
        (TraceParser.new.parse s eventProcessor).accepted) ↔
      parser.startCondition = .initial ∨ StartsTest s = false := by
  obtain ⟨sc⟩ := parser
  cases sc with
  | initial => exact ⟨fun _ => Or.inl rfl, fun _ => ⟨rfl, rfl⟩⟩
  | directive =>
    have hrun : ∀ sc, (TraceParser.mk sc).run s = parseLexemes .trace (scan sc 1 s) :=
      fun sc => rfl
    cases s with
    | nil => exact ⟨fun _ => Or.inr rfl, fun _ => ⟨rfl, rfl⟩⟩
    | cons c s =>
      by_cases hc : c = '\n'
      · -- a newline brings both parsers to `INITIAL`
        subst hc
        have hsame : (TraceParser.mk .directive).run ('\n' :: s) =
            TraceParser.new.run ('\n' :: s) := by
          rw [TraceParser.new, hrun, hrun, scan_newline, scan_newline]
        have hstart : StartsTest ('\n' :: s) = false := rfl
        simp [TraceParser.parse, hsame, hstart]
      · have hfails := parse_directive_failsAtOnce hc 1 s
        obtain ⟨hevents, haccepted⟩ := hfails.deliver eventProcessor
        cases hstart : StartsTest (c :: s) with
        | false =>
          obtain ⟨hevents', haccepted'⟩ :=
            (parse_initial_failsAtOnce hc hstart).deliver eventProcessor
          refine ⟨fun _ => Or.inr rfl, fun _ => ⟨?_, ?_⟩⟩
          · exact hevents.trans hevents'.symm
          · exact haccepted.trans haccepted'.symm
        | true =>
          constructor
          · rintro ⟨heq, -⟩
            have hne := parse_events_ne_nil TraceParser.new
              (parse_initial_reductions hstart) eventProcessor
            exact absurd (heq.symm.trans hevents) hne
          · rintro (h | h) <;> cases h

/-- A reused parser behaves as a new one exactly in these cases. -/
theorem reused_parse_iff
    (history : List (Str × EventProcessor)) (s : Str) (eventProcessor : EventProcessor) :
    (((TraceParser.reused history).parse s eventProcessor).events =
        (TraceParser.new.parse s eventProcessor).events ∧
      ((TraceParser.reused history).parse s eventProcessor).accepted =
        (TraceParser.new.parse s eventProcessor).accepted) ↔
      (TraceParser.reused history).startCondition = .initial ∨ StartsTest s = false :=
  parse_startCondition_iff (TraceParser.reused history) s eventProcessor

/-- After the text `TN:` without a newline the same text with a newline is rejected. -/
theorem reused_parse_of_unterminated_line :
    ¬∀ (history : List (Str × EventProcessor)) (s : Str) (eventProcessor : EventProcessor),
      ((TraceParser.reused history).parse s eventProcessor).events =
          (TraceParser.new.parse s eventProcessor).events ∧
        ((TraceParser.reused history).parse s eventProcessor).accepted =
          (TraceParser.new.parse s eventProcessor).accepted := by
  intro h
  have := (h [(['T', 'N', ':'], fun _ => true)] ['T', 'N', ':', '\n'] fun _ => true).2
  revert this
  decide +kernel

end Coverage
end KedrAux
