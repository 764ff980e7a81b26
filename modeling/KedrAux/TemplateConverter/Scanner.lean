import KedrAux.Lib.Backtracking

/-!
# Scanner of kedr_gen templates

The text of a template is split into directives and texts by one regular expression, an
alternative for each rule.  The matcher tries the alternatives in the order of the rules.
-/

namespace KedrAux
namespace TemplateConverter

open Backtracking

abbrev CString := List Char

structure Position where
  filename : CString
  line : Nat
  column : Nat
deriving DecidableEq

def Position.advance (position : Position) (s : CString) : Position :=
  let nLines := s.count '\n'
  if 0 < nLines then
    { position with
      line := position.line + nLines
      column := (s.reverse.takeWhile (· ≠ '\n')).length + 1 }
  else { position with column := position.column + s.length }

inductive Sentence where
  | ifSentence
  | elseSentence
  | endifSentence
  | refSentence
  | textSentence
deriving DecidableEq

inductive Group where
  | sentence (name : Sentence)
  | concat
  | nameIfC
  | nameIf
  | nameRef
  | join
  | joinStr
deriving DecidableEq

/-- The class `[ \t]`. -/
def isBlank (c : Char) : Bool := c = ' ' || c = '\t'

/-- The class `[\w.]`. -/
def isName (c : Char) : Bool := c.isAlphanum || c = '_' || c = '.'

/-- The class `[^\)]`. -/
def notClosing (c : Char) : Bool := c ≠ ')'

/-- The class `[^<]`. -/
def notOpening (c : Char) : Bool := c ≠ '<'

abbrev Regex := Pattern Char Group

/-- The rule `<\$if[ \t]+((?P<concat>concat\((?P<name_if_c>[\w.]+)\))|(?P<name_if>[\w.]+))[ \t]*\$>`. -/
def ifRegex : Regex :=
  .seq (.lit ['<', '$', 'i', 'f']) <| .seq (.some isBlank) <|
    .seq (.alt
      (.group .concat <| .seq (.lit ['c', 'o', 'n', 'c', 'a', 't', '(']) <|
        .seq (.group .nameIfC (.some isName)) (.lit [')']))
      (.group .nameIf (.some isName))) <|
    .seq (.many isBlank) (.lit ['$', '>'])

/-- The rules `<\$[ \t]*else[ \t]*\$>` and `<\$[ \t]*endif[ \t]*\$>`, with the given word. -/
def wordRegex (word : CString) : Regex :=
  .seq (.lit ['<', '$']) <| .seq (.many isBlank) <| .seq (.lit word) <|
    .seq (.many isBlank) (.lit ['$', '>'])

def elseRegex : Regex := wordRegex ['e', 'l', 's', 'e']

def endifRegex : Regex := wordRegex ['e', 'n', 'd', 'i', 'f']

/--
The rule `<\$[ \t]*(?P<name_ref>[\w.]+)[ \t]*` followed by
`(?P<join>:[ \t]*join[ \t]*(\((?P<join_str>[^\)]*)\)[ \t]*)?)?\$>`
-/
def refRegex : Regex :=
  .seq (.lit ['<', '$']) <| .seq (.many isBlank) <| .seq (.group .nameRef (.some isName)) <|
    .seq (.many isBlank) <|
      .seq (.opt <| .group .join <| .seq (.lit [':']) <| .seq (.many isBlank) <|
          .seq (.lit ['j', 'o', 'i', 'n']) <| .seq (.many isBlank) <|
            .opt <| .seq (.lit ['(']) <| .seq (.group .joinStr (.many notClosing)) <|
              .seq (.lit [')']) (.many isBlank))
        (.lit ['$', '>'])

/-- The rule `[^<]+|<[^<]*`. -/
def textRegex : Regex :=
  .alt (.some notOpening) (.seq (.lit ['<']) (.many notOpening))

/-- The rules of kedr_gen templates. -/
def rule : Sentence → Regex
  | .ifSentence => ifRegex
  | .elseSentence => elseRegex
  | .endifSentence => endifRegex
  | .refSentence => refRegex
  | .textSentence => textRegex

/-- The alternatives of the regular expression, one for each rule. -/
def alternative (name : Sentence) : Regex := .group (.sentence name) (rule name)

def regex : Regex :=
  .alt (alternative .ifSentence) <| .alt (alternative .elseSentence) <|
    .alt (alternative .endifSentence) <| .alt (alternative .refSentence) <|
      alternative .textSentence

structure Token where
  name : Sentence
  value : CString
  groups : List (Group × CString)
  position : Position
deriving DecidableEq

/-- Text of the named group, if it takes part in the match. -/
def Token.group (token : Token) (name : Group) : Option CString := token.groups.lookup name

inductive LoadError where
  | attributeError
  | assertionError
  | syntaxError
  | parseError (currentToken : Option Token) (message : CString)
  | wrongReference (message : CString)
  | noTemplate
  | outOfFuel
deriving DecidableEq

/-- The name of the rule, when the group that is closed last belongs to one. -/
def lastgroup (groups : List (Group × CString)) : Option Sentence :=
  match groups.getLast? with
  | some (.sentence name, _) => some name
  | _ => none

/-- Unread text and its position. -/
structure Scanner where
  content : CString
  position : Position
deriving DecidableEq

def Scanner.token (scanner : Scanner) : Except LoadError (Option Token × Scanner) :=
  if scanner.content = [] then .ok (none, scanner)
  else
    match regex.find scanner.content with
    | none => .error .attributeError
    | some m =>
      match lastgroup m.groups with
      | none => .error .syntaxError
      | some name => .ok (some ⟨name, m.text, m.groups, scanner.position⟩,
          ⟨m.rest, scanner.position.advance m.text⟩)

/-- What `token` returns when it is called again and again, `n` times at most. -/
def tokensFrom : Nat → Scanner → List Token
  | 0, _ => []
  | n + 1, scanner =>
    match scanner.token with
    | .ok (some token, scanner) => token :: tokensFrom n scanner
    | _ => []

def Scanner.tokens (scanner : Scanner) : List Token := tokensFrom scanner.content.length scanner

/-- Directives have the form of one of the first four rules. -/
def IsDirective (w : CString) : Prop :=
  ∃ name, name ≠ .textSentence ∧ w ∈ (rule name).language

section Forms

/-- What comes after the name of a reference. -/
def refEnd : Regex :=
  .alt (.seq (.lit [':']) <| .seq (.many isBlank) <| .seq (.lit ['j', 'o', 'i', 'n']) <|
      .seq (.many isBlank) <|
        .alt (.seq (.lit ['(']) <| .seq (.many notClosing) <| .seq (.lit [')']) <|
            .seq (.many isBlank) (.lit ['$', '>']))
          (.lit ['$', '>']))
    (.lit ['$', '>'])

theorem refRegex_language :
    refRegex.language = (.lit ['<', '$'] : Regex).language * ((.many isBlank : Regex).language *
      ((.some isName : Regex).language * ((.many isBlank : Regex).language *
        refEnd.language))) := by
  simp only [refRegex, refEnd, Pattern.language_seq, Pattern.language_group, Pattern.language_opt,
    Pattern.language_alt, mul_add, add_mul, one_mul, mul_one, mul_assoc]

/-- The condition of `if` and what comes after it. -/
def condition : Regex :=
  .alt (.seq (.lit ['c', 'o', 'n', 'c', 'a', 't', '(']) <| .seq (.some isName) <|
      .seq (.lit [')']) <| .seq (.many isBlank) (.lit ['$', '>']))
    (.seq (.some isName) <| .seq (.many isBlank) (.lit ['$', '>']))

theorem ifRegex_language :
    ifRegex.language = (.lit ['<', '$', 'i', 'f'] : Regex).language *
      ((.some isBlank : Regex).language * condition.language) := by
  simp only [ifRegex, condition, Pattern.language_seq, Pattern.language_group,
    Pattern.language_alt, add_mul, mul_assoc]

theorem not_isBlank_of_isName (c : Char) (h : isName c = true) : (!isBlank c) = true := by
  rw [Bool.not_eq_true', ← Bool.not_eq_true]
  intro hb
  rcases (by simpa [isBlank] using hb : c = ' ' ∨ c = '\t') with rfl | rfl <;> revert h <;> decide

theorem not_isName_of_isBlank (c : Char) (h : isBlank c = true) : (!isName c) = true := by
  rcases (by simpa [isBlank] using h : c = ' ' ∨ c = '\t') with rfl | rfl <;> decide

theorem refEnd_starts {p : Char → Bool} (hcolon : p ':' = true) (hdollar : p '$' = true) :
    Starts p refEnd.language := by
  rw [refEnd]
  simp only [Pattern.language_alt, Pattern.language_seq]
  exact (Starts.lit_mul hcolon).add (Starts.lit hdollar)

theorem refEnd_prefixFree : PrefixFree refEnd.language := by
  have hclose : PrefixFree ((.many isBlank : Regex).language * (.lit ['$', '>'] : Regex).language) :=
    PrefixFree.lit.many_mul (Starts.lit rfl)
  have hstr : PrefixFree ((.lit ['('] : Regex).language * ((.many notClosing : Regex).language *
      ((.lit [')'] : Regex).language * ((.many isBlank : Regex).language *
        (.lit ['$', '>'] : Regex).language)))) :=
    (hclose.lit_mul.many_mul (Starts.lit_mul rfl)).lit_mul
  have hend : PrefixFree (.lit ['$', '>'] : Regex).language := PrefixFree.lit
  have hopt := hstr.add hend
    (Apart.of_starts (p := fun c => c = '(') (Starts.lit_mul rfl) (Starts.lit rfl))
  rw [refEnd]
  simp only [Pattern.language_alt, Pattern.language_seq]
  refine PrefixFree.add ((hopt.many_mul ?_).lit_mul.many_mul (Starts.lit_mul rfl)).lit_mul
    PrefixFree.lit (Apart.of_starts (p := fun c => c = ':') (Starts.lit_mul rfl) (Starts.lit rfl))
  exact (Starts.lit_mul rfl).add (Starts.lit rfl)

theorem refRegex_prefixFree : PrefixFree refRegex.language := by
  rw [refRegex_language]
  refine (((refEnd_prefixFree.many_mul (refEnd_starts rfl rfl)).some_mul ?_).many_mul ?_).lit_mul
  · exact (refEnd_starts rfl rfl).many_mul not_isName_of_isBlank
  · exact Starts.some_mul not_isBlank_of_isName

theorem condition_starts {p : Char → Bool} (hp : ∀ c, isName c = true → p c = true) :
    Starts p condition.language := by
  rw [condition]
  simp only [Pattern.language_alt, Pattern.language_seq]
  exact (Starts.lit_mul (hp 'c' rfl)).add (Starts.some_mul hp)

theorem condition_prefixFree : PrefixFree condition.language := by
  have hclose : PrefixFree ((.many isBlank : Regex).language * (.lit ['$', '>'] : Regex).language) :=
    PrefixFree.lit.many_mul (Starts.lit rfl)
  have hname : Starts (fun c => !isName c)
      ((.many isBlank : Regex).language * (.lit ['$', '>'] : Regex).language) :=
    (Starts.lit rfl).many_mul not_isName_of_isBlank
  -- the word before the parenthesis is a name
  have hparen : Apart ((.lit ['('] : Regex).language * ((.some isName : Regex).language *
      ((.lit [')'] : Regex).language * ((.many isBlank : Regex).language *
        (.lit ['$', '>'] : Regex).language))))
      ((.many isBlank : Regex).language * (.lit ['$', '>'] : Regex).language) :=
    Apart.of_starts (p := fun c => c = '(') (Starts.lit_mul rfl)
      ((Starts.lit rfl).many_mul fun c hc => by
        rcases (by simpa [isBlank] using hc : c = ' ' ∨ c = '\t') with rfl | rfl <;> rfl)
  rw [condition]
  simp only [Pattern.language_alt, Pattern.language_seq]
  refine PrefixFree.add (hclose.lit_mul.some_mul (Starts.lit_mul rfl)).lit_mul
    (hclose.some_mul hname)
    ((hparen.some_mul (p := isName) (Starts.lit_mul rfl) hname).mono ?_ fun w hw => hw)
  intro w hw
  obtain ⟨v, hv, rfl⟩ := mem_lit_mul.mp hw
  refine Language.mem_mul.mpr ⟨['c', 'o', 'n', 'c', 'a', 't'], Pattern.mem_some.mpr ?_, '(' :: v,
    mem_lit_mul.mpr ⟨v, hv, rfl⟩, rfl⟩
  exact ⟨List.cons_ne_nil _ _, List.all_eq_true.mp rfl⟩

theorem ifRegex_prefixFree : PrefixFree ifRegex.language := by
  rw [ifRegex_language]
  exact (condition_prefixFree.some_mul (condition_starts not_isBlank_of_isName)).lit_mul

/-- After the word `if` a reference goes on with a colon or ends, a condition has a name. -/
theorem ifRegex_apart_refRegex : Apart ifRegex.language refRegex.language := by
  have hafter : Apart ((.many isBlank : Regex).language * condition.language)
      ((.many isBlank : Regex).language * refEnd.language) :=
    (Apart.of_starts (condition_starts fun _ hc => hc) (refEnd_starts rfl rfl)).many_mul
      (condition_starts not_isBlank_of_isName) (refEnd_starts rfl rfl)
  have hname : Apart ((.some isName : Regex).language *
        ((.some isBlank : Regex).language * condition.language))
      ((.some isName : Regex).language * ((.many isBlank : Regex).language * refEnd.language)) :=
    (hafter.mono (fun _ hw => some_subset_many hw) fun _ hw => hw).some_mul
      (Starts.some_mul not_isName_of_isBlank)
      ((refEnd_starts rfl rfl).many_mul not_isName_of_isBlank)
  have hblank : Apart ((.many isBlank : Regex).language * ((.some isName : Regex).language *
        ((.some isBlank : Regex).language * condition.language)))
      ((.many isBlank : Regex).language * ((.some isName : Regex).language *
        ((.many isBlank : Regex).language * refEnd.language))) :=
    hname.many_mul (Starts.some_mul not_isBlank_of_isName) (Starts.some_mul not_isBlank_of_isName)
  rw [ifRegex_language, refRegex_language]
  refine (hblank.lit_mul).mono (fun w hw => ?_) fun w hw => hw
  obtain ⟨v, hv, rfl⟩ := mem_lit_mul.mp hw
  refine mem_lit_mul.mpr ⟨['i', 'f'] ++ v, ?_, rfl⟩
  refine Language.mem_mul.mpr ⟨[], fun c hc => absurd hc List.not_mem_nil, _, ?_, rfl⟩
  refine Language.mem_mul.mpr ⟨['i', 'f'], Pattern.mem_some.mpr ?_, v, hv, rfl⟩
  exact ⟨List.cons_ne_nil _ _, List.all_eq_true.mp rfl⟩

variable {w : CString}

theorem wordRegex_subset {word : CString} (hne : word ≠ []) (hword : ∀ c ∈ word, isName c = true)
    (hw : w ∈ (wordRegex word).language) : w ∈ refRegex.language := by
  rw [refRegex_language]
  obtain ⟨u, hu, hw'⟩ := mem_lit_mul.mp hw
  rw [hw']
  refine mem_lit_mul.mpr ⟨u, ?_, rfl⟩
  obtain ⟨x, hx, y, hy, rfl⟩ := Language.mem_mul.mp hu
  obtain ⟨z, hz, rfl⟩ := mem_lit_mul.mp hy
  obtain ⟨x', hx', z', hz', rfl⟩ := Language.mem_mul.mp hz
  refine Language.append_mem_mul hx (Language.append_mem_mul (Pattern.mem_some.mpr ⟨hne, hword⟩)
    (Language.append_mem_mul hx' ?_))
  rw [refEnd, Pattern.language_alt]
  exact Or.inr hz'

theorem IsDirective.if_or_ref (h : IsDirective w) : w ∈ ifRegex.language + refRegex.language := by
  obtain ⟨name, hname, hw⟩ := h
  cases name with
  | ifSentence => exact Or.inl hw
  | elseSentence
  | endifSentence =>
    exact Or.inr (wordRegex_subset (List.cons_ne_nil _ _) (List.all_eq_true.mp rfl) hw)
  | refSentence => exact Or.inr hw
  | textSentence => exact absurd rfl hname

theorem IsDirective.unique {w' t t' : CString} (h : IsDirective w) (h' : IsDirective w')
    (heq : w ++ t = w' ++ t') : w = w' :=
  (ifRegex_prefixFree.add refRegex_prefixFree ifRegex_apart_refRegex) w h.if_or_ref w' h'.if_or_ref
    t t' heq

theorem IsDirective.cons (h : IsDirective w) : ∃ v, w = '<' :: v := by
  have hstarts : Starts (fun c => decide (c = '<')) (ifRegex.language + refRegex.language) := by
    rw [ifRegex_language, refRegex_language]
    exact (Starts.lit_mul rfl).add (Starts.lit_mul rfl)
  obtain ⟨c, v, rfl, hc⟩ := hstarts w h.if_or_ref
  exact ⟨v, by rw [of_decide_eq_true hc]⟩

end Forms

section Steps

@[simp] theorem lastgroup_append (groups : List (Group × CString)) (name : Sentence)
    (text : CString) :
    lastgroup (groups ++ [(.sentence name, text)]) = some name := by
  rw [lastgroup, List.getLast?_append]
  rfl

theorem find_alternative (name : Sentence) (s : CString) :
    (alternative name).find s = ((rule name).find s).map fun m =>
      { m with groups := m.groups ++ [(.sentence name, m.text)] } :=
  Pattern.find_group _ _ _

variable {s w : CString} {scanner scanner' : Scanner} {token : Token}

theorem textRegex_find (hs : s ≠ []) : textRegex.find s ≠ none := by
  intro hnone
  have hlanguage := Pattern.find_eq_none.mp hnone
  cases s with
  | nil => exact hs rfl
  | cons c s =>
    rw [textRegex, Pattern.language_alt] at hlanguage
    by_cases hc : notOpening c = true
    · refine hlanguage [c] s rfl (Or.inl (Pattern.mem_some.mpr ⟨List.cons_ne_nil _ _, ?_⟩))
      exact fun a ha => List.mem_singleton.mp ha ▸ hc
    · have hopening : c = '<' := by simpa [notOpening] using hc
      refine hlanguage [c] s rfl (Or.inr (mem_lit_mul.mpr ⟨[], ?_, by rw [hopening]; rfl⟩))
      exact fun a ha => absurd ha List.not_mem_nil

theorem regex_find (hs : s ≠ []) :
    ∃ name m, regex.find s = some m ∧ lastgroup m.groups = some name ∧ s = m.text ++ m.rest ∧
      m.text ∈ (rule name).language ∧
      (name = .textSentence → ∀ w rest, s = w ++ rest → ¬ IsDirective w) := by
  simp only [regex, Pattern.find_alt, find_alternative]
  have hmatch : ∀ name m, (rule name).find s = some m → s = m.text ++ m.rest ∧
      m.text ∈ (rule name).language := fun name m hm => Pattern.find_eq_some hm
  cases hif : (rule .ifSentence).find s with
  | some m =>
    obtain ⟨hs', hlanguage⟩ := hmatch _ m hif
    exact ⟨.ifSentence, _, rfl, lastgroup_append _ _ _, hs', hlanguage, fun h => (by cases h)⟩
  | none =>
  cases helse : (rule .elseSentence).find s with
  | some m =>
    obtain ⟨hs', hlanguage⟩ := hmatch _ m helse
    exact ⟨.elseSentence, _, rfl, lastgroup_append _ _ _, hs', hlanguage, fun h => (by cases h)⟩
  | none =>
  cases hendif : (rule .endifSentence).find s with
  | some m =>
    obtain ⟨hs', hlanguage⟩ := hmatch _ m hendif
    exact ⟨.endifSentence, _, rfl, lastgroup_append _ _ _, hs', hlanguage, fun h => (by cases h)⟩
  | none =>
  cases href : (rule .refSentence).find s with
  | some m =>
    obtain ⟨hs', hlanguage⟩ := hmatch _ m href
    exact ⟨.refSentence, _, rfl, lastgroup_append _ _ _, hs', hlanguage, fun h => (by cases h)⟩
  | none =>
  cases htext : (rule .textSentence).find s with
  | none => exact absurd htext (textRegex_find hs)
  | some m =>
    obtain ⟨hs', hlanguage⟩ := hmatch _ m htext
    refine ⟨.textSentence, _, rfl, lastgroup_append _ _ _, hs', hlanguage, ?_⟩
    rintro - w rest hw ⟨name, hname, hdirective⟩
    cases name with
    | ifSentence => exact Pattern.find_eq_none.mp hif w rest hw hdirective
    | elseSentence => exact Pattern.find_eq_none.mp helse w rest hw hdirective
    | endifSentence => exact Pattern.find_eq_none.mp hendif w rest hw hdirective
    | refSentence => exact Pattern.find_eq_none.mp href w rest hw hdirective
    | textSentence => exact hname rfl

theorem rule_ne_nil {name : Sentence} (h : w ∈ (rule name).language) : w ≠ [] := by
  by_cases hname : name = .textSentence
  · rw [hname, rule, textRegex, Pattern.language_alt] at h
    rcases h with h | h
    · exact (Pattern.mem_some.mp h).1
    · obtain ⟨v, -, rfl⟩ := mem_lit_mul.mp h
      exact List.cons_ne_nil _ _
  · obtain ⟨v, rfl⟩ := IsDirective.cons ⟨name, hname, h⟩
    exact List.cons_ne_nil _ _

theorem textRegex_opening {c : Char} (h : c :: w ∈ textRegex.language) : '<' ∉ w := by
  rw [textRegex, Pattern.language_alt] at h
  rcases h with h | h
  · intro hmem
    have hc := (Pattern.mem_some.mp h).2 '<' (List.mem_cons_of_mem _ hmem)
    simp [notOpening] at hc
  · obtain ⟨v, hv, heq⟩ := mem_lit_mul.mp h
    obtain ⟨-, rfl⟩ := List.cons.inj heq
    intro hmem
    have hc := hv '<' hmem
    simp [notOpening] at hc

structure Scanner.Reads (scanner : Scanner) (token : Token) (scanner' : Scanner) : Prop where
  token_eq : scanner.token = .ok (some token, scanner')
  content : scanner.content = token.value ++ scanner'.content
  language : token.value ∈ (rule token.name).language
  text : token.name = .textSentence → ∀ w rest, scanner.content = w ++ rest → ¬ IsDirective w

theorem Scanner.reads (h : scanner.content ≠ []) :
    ∃ token scanner', scanner.Reads token scanner' := by
  obtain ⟨name, m, hfind, hname, hcontent, hlanguage, htext⟩ := regex_find h
  refine ⟨⟨name, m.text, m.groups, scanner.position⟩,
    ⟨m.rest, scanner.position.advance m.text⟩, ?_, hcontent, hlanguage, htext⟩
  rw [Scanner.token, if_neg h, hfind]
  simp only [hname]

theorem Scanner.token_nil (h : scanner.content = []) :
    scanner.token = .ok (none, scanner) := if_pos h

theorem Scanner.Reads.length_lt (h : scanner.Reads token scanner') :
    scanner'.content.length < scanner.content.length := by
  have hpos := List.length_pos_iff.mpr (rule_ne_nil h.language)
  rw [h.content, List.length_append]
  omega

theorem tokensFrom_of_le {n : Nat} (h : scanner.content.length ≤ n) :
    tokensFrom n scanner = scanner.tokens := by
  rw [Scanner.tokens]
  generalize hk : scanner.content.length = k at h ⊢
  induction n using Nat.strong_induction_on generalizing k scanner with
  | _ n ih =>
    by_cases hcontent : scanner.content = []
    · rw [hcontent] at hk
      obtain rfl : k = 0 := hk.symm
      cases n with
      | zero => rfl
      | succ n => simp only [tokensFrom, Scanner.token_nil hcontent]
    · obtain ⟨token, scanner', hreads⟩ := Scanner.reads hcontent
      have hlt := hreads.length_lt
      cases n with
      | zero => omega
      | succ n =>
        cases k with
        | zero => omega
        | succ k =>
          rw [tokensFrom, tokensFrom, hreads.token_eq]
          simp only
          rw [ih n (by omega) _ rfl (by omega), ih k (by omega) _ rfl (by omega)]

theorem Scanner.tokens_nil (h : scanner.content = []) : scanner.tokens = [] := by
  rw [Scanner.tokens, h]
  rfl

theorem Scanner.Reads.tokens_eq (h : scanner.Reads token scanner') :
    scanner.tokens = token :: scanner'.tokens := by
  have hlt := h.length_lt
  rw [Scanner.tokens]
  cases hn : scanner.content.length with
  | zero => omega
  | succ n =>
    rw [tokensFrom, h.token_eq]
    simp only
    rw [tokensFrom_of_le (by omega)]

end Steps

theorem flatMap_value_tokens (scanner : Scanner) :
    scanner.tokens.flatMap Token.value = scanner.content := by
  induction hn : scanner.content.length using Nat.strong_induction_on generalizing scanner with
  | _ n ih =>
    by_cases hcontent : scanner.content = []
    · rw [scanner.tokens_nil hcontent, hcontent]
      rfl
    · obtain ⟨token, scanner', hreads⟩ := Scanner.reads hcontent
      have hlt := hreads.length_lt
      rw [hreads.tokens_eq, List.flatMap_cons, ih _ (by omega) scanner' rfl, hreads.content]

/-- A directive at the given place of the text is a token, or it begins inside of another one. -/
structure DirectivesFound (tokens : List Token) (text : CString) : Prop where
  found : ∀ pre w post, text = pre ++ w ++ post → IsDirective w →
    (∃ before token after, tokens = before ++ token :: after ∧ token.name ≠ .textSentence ∧
      before.flatMap Token.value = pre ∧ token.value = w) ∨
    ∃ before token after, tokens = before ++ token :: after ∧ token.name ≠ .textSentence ∧
      (before.flatMap Token.value).length < pre.length ∧
      pre.length < (before.flatMap Token.value).length + token.value.length

theorem directivesFound (scanner : Scanner) : DirectivesFound scanner.tokens scanner.content := by
  induction hn : scanner.content.length using Nat.strong_induction_on generalizing scanner with
  | _ n ih =>
    constructor
    intro pre w post htext hw
    obtain ⟨v, hv⟩ := hw.cons
    have hcontent : scanner.content ≠ [] := by
      rw [htext, hv]
      simp
    obtain ⟨token, scanner', hreads⟩ := Scanner.reads hcontent
    have hlt := hreads.length_lt
    have hsplit := hreads.content
    rw [hreads.tokens_eq]
    cases pre with
    | nil =>
      have hdirective : token.name ≠ .textSentence := fun hname =>
        hreads.text hname w post htext hw
      rw [htext, List.nil_append] at hsplit
      exact Or.inl ⟨[], token, scanner'.tokens, rfl, hdirective, rfl,
        (hw.unique ⟨token.name, hdirective, hreads.language⟩ hsplit).symm⟩
    | cons c pre =>
      by_cases hinside : (c :: pre).length < token.value.length
      · -- the sign `<` inside of a token
        refine Or.inr ⟨[], token, scanner'.tokens, rfl, ?_, by simp, by simpa using hinside⟩
        intro hname
        have hlanguage := hreads.language
        rw [hname, rule] at hlanguage
        cases hvalue : token.value with
        | nil => exact rule_ne_nil hreads.language hvalue
        | cons d value =>
          rw [hvalue] at hlanguage hinside hsplit
          refine textRegex_opening hlanguage ?_
          rw [htext, hv, List.append_assoc, List.cons_append, List.cons_append] at hsplit
          have htail : pre ++ '<' :: (v ++ post) = value ++ scanner'.content :=
            (List.cons.inj hsplit).2
          have hlength : pre.length < value.length := by simpa using hinside
          have hget := congrArg (fun l => l[pre.length]?) htail
          simp only [List.getElem?_append_right (le_refl pre.length), Nat.sub_self,
            List.getElem?_append_left hlength] at hget
          exact List.mem_of_getElem? hget.symm
      · -- the first token comes before the place
        have hle : token.value.length ≤ (c :: pre).length := not_lt.mp hinside
        obtain ⟨pre', hpre'⟩ : ∃ pre', token.value ++ pre' = c :: pre := by
          rw [htext, List.append_assoc] at hsplit
          exact List.prefix_of_prefix_length_le ⟨_, hsplit.symm⟩ (List.prefix_append _ _) hle
        have htext' : scanner'.content = pre' ++ w ++ post := by
          rw [htext, ← hpre', List.append_assoc, List.append_assoc] at hsplit
          rw [← List.append_cancel_left hsplit, List.append_assoc]
        rcases (ih _ (by omega) scanner' rfl).found pre' w post htext' hw with
          ⟨before, token', after, htokens, hname, hbefore, hvalue⟩ |
          ⟨before, token', after, htokens, hname, hbefore, hafter⟩
        · refine Or.inl ⟨token :: before, token', after, ?_, hname, ?_, hvalue⟩
          · rw [htokens]
            rfl
          · rw [List.flatMap_cons, hbefore, hpre']
        · refine Or.inr ⟨token :: before, token', after, ?_, hname, ?_, ?_⟩
          · rw [htokens]
            rfl
          · rw [List.flatMap_cons, ← hpre', List.length_append, List.length_append]
            omega
          · rw [List.flatMap_cons, ← hpre', List.length_append, List.length_append]
            omega

end TemplateConverter
end KedrAux
