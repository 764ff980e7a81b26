import KedrAux.DataConverter.Attributes
import KedrAux.Lib.DottedNames
import KedrAux.Lib.Outline
import KedrAux.Lib.Yields

/-!
# The data in the output

The output is read by its indentations: a value is printed under the attributes that its place is
below.  What is read are the parameters of the data file with its empty lines and comments.
-/

namespace KedrAux
namespace DataConverter

open Outline

/-- A pair of a chain of attributes and a value, with the names of the sequences that have a new
element since the last pair. -/
inductive Item where
  | emptyLine
  | comment (comment : CString)
  | pair (chain : List CString) (value : CString) (started : List CString)
deriving DecidableEq

/-- The maps at a place of the output, and the sequences with a new element. -/
structure Reader where
  levels : List (Level CString)
  started : List CString
deriving DecidableEq

def fullNameOf (levels : List (Level CString)) : CString := ['.'].intercalate (chain levels)

/-- There is no result when an attribute occurs twice in a map. -/
def Output.read (r : Reader) : Output → Option (Reader × List Item)
  | .emptyLine => some (r, [.emptyLine])
  | .comment c => some (r, [.comment c])
  | .groupName name => (enter false 0 name r.levels).map fun levels => (⟨levels, r.started⟩, [])
  | .attributeName elem indent name =>
    (enter elem indent name r.levels).map fun levels =>
      (⟨levels, if elem then fullNameOf (below indent r.levels) :: r.started else r.started⟩, [])
  | .lineEnd => some (r, [])
  | .value v _ => some (⟨r.levels, []⟩, [.pair (chain r.levels) v r.started])
  | .elemValue elemIndent v _ =>
    let levels := below elemIndent r.levels
    some (⟨levels, []⟩, [.pair (chain levels) v (fullNameOf levels :: r.started)])

def readAll (r : Reader) : List Output → Option (Reader × List Item)
  | [] => some (r, [])
  | output :: outputs => do
      let (r, items) ← output.read r
      let (r, items') ← readAll r outputs
      return (r, items ++ items')

section Follows

variable (defs : Definitions)

def isGroupSub (paramName : CString) : Bool :=
  defs.groupParam.any fun group => (group ++ ['.']).isPrefixOf paramName

/-- A new element of the sequence of groups was begun. -/
def GroupStarted (started : List CString) : Prop := ∃ group ∈ defs.groupParam, group ∈ started

/-- The items are those of the tokens. The flags tell whether there was a `[group]` line with no
subparameter of the group parameter after it; the next one begins an element of the sequence. -/
inductive Follows : Bool → List Token → List Item → Bool → Prop
  | nil {opened : Bool} : Follows opened [] [] opened
  | empty {opened opened' : Bool} {tokens : List Token} {items : List Item}
      (h : Follows opened tokens items opened') :
      Follows opened (.empty :: tokens) (.emptyLine :: items) opened'
  | comment {opened opened' : Bool} {tokens : List Token} {items : List Item} (comment : CString)
      (h : Follows opened tokens items opened') :
      Follows opened (.comment comment :: tokens) (.comment comment :: items) opened'
  | group {opened opened' : Bool} {tokens : List Token} {items : List Item}
      (h : Follows true tokens items opened') :
      Follows opened (.group :: tokens) items opened'
  | param {opened opened' : Bool} {tokens : List Token} {items : List Item} {chain : List CString}
      {started : List CString} {paramName : CString} (value : CString)
      (hname : ['.'].intercalate chain = paramName)
      (hstarted : opened = true → isGroupSub defs paramName = true → GroupStarted defs started)
      (h : Follows (opened && !isGroupSub defs paramName) tokens items opened') :
      Follows opened (.param paramName value :: tokens) (.pair chain value started :: items) opened'

end Follows

variable {opened opened' opened'' : Bool} {items : List Item} {r r' : Reader}
variable {output : Output}

section Rules

variable {defs : Definitions} {tokens tokens' : List Token}
variable {items' : List Item}

theorem Follows.append (h : Follows defs opened tokens items opened')
    (h' : Follows defs opened' tokens' items' opened'') :
    Follows defs opened (tokens ++ tokens') (items ++ items') opened'' := by
  induction h with
  | nil => exact h'
  | empty _ ih => exact .empty (ih h')
  | comment c _ ih => exact .comment c (ih h')
  | group _ ih => exact .group (ih h')
  | param v hname hstarted _ ih => exact .param v hname hstarted (ih h')

theorem readAll_singleton (h : output.read r = some (r', items)) :
    readAll r [output] = some (r', items) := by
  rw [readAll, h]
  exact congrArg (fun items => some (r', items)) (List.append_nil items)

theorem readAll_append {outputs outputs' : List Output} {r'' : Reader}
    (h : readAll r outputs = some (r', items)) (h' : readAll r' outputs' = some (r'', items')) :
    readAll r (outputs ++ outputs') = some (r'', items ++ items') := by
  induction outputs generalizing r items with
  | nil =>
    cases h
    exact h'
  | cons output outputs ih =>
    rw [readAll] at h
    obtain ⟨⟨r1, items1⟩, hread, h⟩ := Option.bind_eq_some_iff.mp h
    obtain ⟨⟨r2, items2⟩, hrest, h⟩ := Option.bind_eq_some_iff.mp h
    cases h
    rw [List.cons_append, readAll, hread, List.append_assoc]
    change (readAll r1 (outputs ++ outputs')).bind _ = _
    rw [ih hrest]
    rfl

end Rules

def Pending (defs : Definitions) (s : Conversion) (tokens : List Token) : Prop :=
  s.scanner.tokenConsumed = true ∧ s.scanner.lines = tokens ∨
    s.scanner.tokenConsumed = false ∧ ∃ token, s.scanner.lastToken = some token ∧
      tokens = token :: s.scanner.lines ∧ (token = .group → defs.groupParam ≠ none)

structure Taken (defs : Definitions) (token : Token) (tokens : List Token) (s : Conversion) : Prop where
  consumed : s.scanner.tokenConsumed = true
  last : s.scanner.lastToken = some token
  lines : s.scanner.lines = tokens
  group : token = .group → defs.groupParam ≠ none

def IsParse : Failure → Prop
  | .parse _ => True
  | _ => False

variable {s : Conversion}

section Scanner

variable {defs : Definitions} {token : Token} {tokens : List Token}

theorem Taken.pending (h : Taken defs token tokens s) : Pending defs s tokens :=
  .inl ⟨h.consumed, h.lines⟩

variable {E : Failure → Prop}

theorem yields_write {P : Unit → Conversion → Prop}
    (h : P () { s with output := s.output ++ [output] }) : Yields (write output) s P E :=
  h

theorem yields_getToken_nil {P : Option Token → Conversion → Prop} (h : Pending defs s [])
    (hnone : ∀ s', Pending defs s' [] → s'.output = s.output → P none s') :
    Yields (getToken defs) s P E := by
  rcases h with ⟨hconsumed, hlines⟩ | ⟨-, token, -, htokens, -⟩
  · have hget : (getToken defs).run s =
        .ok (none, { s with scanner := { s.scanner with lastToken := none } }) := by
      simp [getToken, doGetToken, hconsumed, hlines]
      rfl
    rw [Yields, hget]
    exact hnone _ (.inl ⟨hconsumed, hlines⟩) rfl
  · exact absurd htokens (List.cons_ne_nil _ _).symm

theorem yields_getToken_cons {P : Option Token → Conversion → Prop}
    (h : Pending defs s (token :: tokens))
    (hsome : ∀ s', Taken defs token tokens s' → s'.output = s.output → P (some token) s') :
    Yields (getToken defs) s P IsParse := by
  rcases h with ⟨hconsumed, hlines⟩ | ⟨hconsumed, token', hlast, htokens, hgroup⟩
  · by_cases hmissing : token = .group ∧ defs.groupParam = none
    · have hget : (getToken defs).run s = .error (.parse .noGroupParam) := by
        simp [getToken, doGetToken, hconsumed, hlines, hmissing]
        rfl
      rw [Yields, hget]
      trivial
    · have hget : (getToken defs).run s =
          .ok (some token, { s with scanner := ⟨tokens, some token, true⟩ }) := by
        simp [getToken, doGetToken, hconsumed, hlines, hmissing]
        rfl
      rw [Yields, hget]
      exact hsome _ ⟨rfl, rfl, rfl, fun ht hnone => hmissing ⟨ht, hnone⟩⟩ rfl
  · obtain ⟨rfl, rfl⟩ := List.cons_eq_cons.mp htokens
    have hget : (getToken defs).run s =
        .ok (some token, { s with scanner := { s.scanner with tokenConsumed := true } }) := by
      simp [getToken, hconsumed, hlast]
      rfl
    rw [Yields, hget]
    exact hsome _ ⟨rfl, hlast, rfl, hgroup⟩ rfl

theorem yields_ungetToken {P : Unit → Conversion → Prop} (h : Taken defs token tokens s)
    (hunget : ∀ s', Pending defs s' (token :: tokens) → s'.output = s.output → P () s') :
    Yields ungetToken s P E := by
  have hget : ungetToken.run s =
      .ok ((), { s with scanner := { s.scanner with tokenConsumed := false } }) := by
    simp [ungetToken, h.consumed]
    rfl
  rw [Yields, hget]
  exact hunget _ (.inr ⟨rfl, token, h.last, by rw [h.lines], h.group⟩) rfl

end Scanner

/-- The output that was added is read as the items of the tokens. -/
def Prints (defs : Definitions) (s s' : Conversion) (r r' : Reader) (opened opened' : Bool)
    (tokens : List Token) : Prop :=
  ∃ written items, s'.output = s.output ++ written ∧ readAll r written = some (r', items) ∧
    Follows defs opened tokens items opened'

variable {s' : Conversion}

section Prints

variable {defs : Definitions} {s'' : Conversion} {r'' : Reader}
variable {tokens tokens' : List Token}

theorem Prints.refl (h : s'.output = s.output) : Prints defs s s' r r opened opened [] :=
  ⟨[], [], by rw [h, List.append_nil], rfl, .nil⟩

theorem Prints.trans (h : Prints defs s s' r r' opened opened' tokens)
    (h' : Prints defs s' s'' r' r'' opened' opened'' tokens') :
    Prints defs s s'' r r'' opened opened'' (tokens ++ tokens') := by
  obtain ⟨written, items, houtput, hread, hfollows⟩ := h
  obtain ⟨written', items', houtput', hread', hfollows'⟩ := h'
  refine ⟨written ++ written', items ++ items', ?_, readAll_append hread hread',
    hfollows.append hfollows'⟩
  rw [houtput', houtput, List.append_assoc]

theorem Prints.write (houtput : s'.output = s.output ++ [output])
    (hread : output.read r = some (r', items)) (hfollows : Follows defs opened tokens items opened') :
    Prints defs s s' r r' opened opened' tokens :=
  ⟨[output], items, houtput, readAll_singleton hread, hfollows⟩

end Prints

/-- The token is a value of the attribute or of one below it. -/
def Begins (attr : Attribute) (paramName : CString) : Prop :=
  paramName = attr.fullName ∨ attr.subPrefix <+: paramName

structure InPlace (defs : Definitions) (attr : Attribute) (base : List (Level CString)) : Prop where
  base_lt : ∀ level ∈ base, level.column < attr.indent
  fullName_eq : fullNameOf base = attr.fullName
  cons_eq : ∀ level, fullNameOf (level :: base) = attr.subPrefix ++ level.name
  isGroup_iff : attr.isGroup = true ↔ defs.groupParam = some attr.fullName
  isSequence_of_isGroup : attr.isGroup = true → attr.isSequence = true
  document : attr.name = none → attr.subPrefix = [] ∧ attr.indent = 0 ∧ base = [] ∧
    attr.isSequence = false
  subPrefix_eq : attr.subPrefix = [] ∧ attr.fullName = [] ∨
    attr.subPrefix = attr.fullName ++ ['.']

/-- After a `[group]` line the next subparameter of the group parameter begins an element. -/
def OpenedOk (defs : Definitions) (attr : Attribute) (attributes : List CString)
    (started : List CString) (opened : Bool) (tokens : List Token) : Prop :=
  opened = true → tokens = [] ∨ (attr.isGroup = true ∧ attributes = []) ∨
    ∃ paramName value rest, tokens = .param paramName value :: rest ∧ Begins attr paramName ∧
      isGroupSub defs paramName = true ∧ GroupStarted defs started

/-- The tokens that an attribute consumed, and what is left. -/
structure Result (defs : Definitions) (attr : Attribute) (base : List (Level CString))
    (s : Conversion) (r : Reader) (opened : Bool) (consumed rest : List Token) (s' : Conversion)
    (r' : Reader) (opened' : Bool) : Prop where
  pending : Pending defs s' rest
  prints : Prints defs s s' r r' opened opened' consumed
  levels : ∃ names, At attr.indent base r'.levels names
  opened_end : opened' = true → rest = []
  group_end : attr.isGroup = true ∨ attr.name = none → rest = []

def Done (defs : Definitions) (attr : Attribute) (base : List (Level CString)) (s : Conversion)
    (r : Reader) (opened : Bool) (tokens : List Token) (s' : Conversion) : Prop :=
  ∃ consumed rest r' opened', tokens = consumed ++ rest ∧
    (∀ paramName value ts, tokens = .param paramName value :: ts → Begins attr paramName →
      consumed ≠ []) ∧
    Result defs attr base s r opened consumed rest s' r' opened'

variable {attr : Attribute} {base : List (Level CString)} {attributes : List CString}

section Attribute

variable {defs : Definitions}
variable {rest : List Token}

theorem Done.after {consumed : List Token} (hne : consumed ≠ [])
    (hprints : Prints defs s s' r r' opened opened' consumed) {s'' : Conversion}
    (h : Done defs attr base s' r' opened' rest s'') :
    Done defs attr base s r opened (consumed ++ rest) s'' := by
  obtain ⟨consumed', rest', r'', opened'', rfl, -, hresult⟩ := h
  refine ⟨consumed ++ consumed', rest', r'', opened'', (List.append_assoc ..).symm, ?_, ?_⟩
  · exact fun _ _ _ _ _ => List.append_ne_nil_of_left_ne_nil hne _
  · exact { hresult with prints := hprints.trans hresult.prints }

theorem InPlace.document_eq (defs : Definitions) : InPlace defs (attributeOf defs none [] 0) [] where
  base_lt := by simp
  fullName_eq := rfl
  cons_eq level := List.intercalate_singleton
  isGroup_iff := decide_eq_true_iff
  isSequence_of_isGroup h := by
    rw [attributeOf] at h ⊢
    exact Bool.or_eq_true_iff.mpr (.inl h)
  document _ := by
    refine ⟨rfl, rfl, rfl, ?_⟩
    rw [attributeOf, Bool.or_eq_false_iff]
    exact ⟨decide_eq_false fun hgroup => defs.groupParam_ne_nil [] hgroup rfl,
      decide_eq_false defs.sequences_ne_nil⟩
  subPrefix_eq := .inl ⟨rfl, rfl⟩

theorem InPlace.child (h : InPlace defs attr base) {level : Level CString} {indent : Nat}
    (hlevel : ∀ l ∈ level :: base, l.column < indent) :
    InPlace defs (attributeOf defs (some level.name) attr.subPrefix indent) (level :: base) where
  base_lt := hlevel
  fullName_eq := h.cons_eq level
  cons_eq level' := by
    rw [fullNameOf, chain_cons, DottedNames.intercalate_concat]
    · have hname := h.cons_eq level
      rw [fullNameOf] at hname
      rw [hname, attributeOf, List.append_assoc, List.append_assoc, List.append_assoc]
      rfl
    · rw [chain_cons]
      exact List.append_ne_nil_of_right_ne_nil _ (List.cons_ne_nil _ _)
  isGroup_iff := decide_eq_true_iff
  isSequence_of_isGroup h := by
    rw [attributeOf] at h ⊢
    exact Bool.or_eq_true_iff.mpr (.inl h)
  document h := by cases h
  subPrefix_eq := .inr rfl

end Attribute

structure Ready (defs : Definitions) (attr : Attribute) (base : List (Level CString))
    (s : Conversion) (r : Reader) (opened : Bool) (attributes : List CString) (tokens : List Token) :
    Prop where
  pending : Pending defs s tokens
  levels : ∃ names, At attr.indent base r.levels names ∧
    (tokens = [] ∨ (attr.isSequence = true ∧ attributes = []) ∨ ∀ n ∈ names, n ∈ attributes)
  heading : attr.name = none → ∀ group ∈ defs.groupParam, group ∈ attributes → tokens = []
  opened : OpenedOk defs attr attributes r.started opened tokens

/-- The names of the parameters are proper and not longer than the bound. -/
def Names (bound : Nat) (tokens : List Token) : Prop :=
  ∀ paramName value, .param paramName value ∈ tokens →
    DottedNames.Proper '.' paramName ∧ paramName.length ≤ bound

/-- What the calls for attributes below an attribute do. -/
def Processes (defs : Definitions) (bound fuel : Nat)
    (process : Option CString → CString → Nat → ConvertM Unit) : Prop :=
  ∀ (name parentPrefix : CString) (indent : Nat) (base : List (Level CString)) (s : Conversion)
    (r : Reader) (opened : Bool) (tokens : List Token),
    InPlace defs (attributeOf defs (some name) parentPrefix indent) base → r.levels = base →
    Pending defs s tokens →
    OpenedOk defs (attributeOf defs (some name) parentPrefix indent) [] r.started opened tokens →
    ((attributeOf defs (some name) parentPrefix indent).isSequence = true ∨
      ∃ paramName value rest, tokens = .param paramName value :: rest ∧
        Begins (attributeOf defs (some name) parentPrefix indent) paramName) →
    Names bound tokens →
    tokens.length + 2 + (bound - (parentPrefix ++ name).length) ≤ fuel →
    Yields (process (some name) parentPrefix indent) s
      (fun _ s' => Done defs (attributeOf defs (some name) parentPrefix indent) base s r opened
      tokens s')
      IsParse

section Loop

variable {defs : Definitions}
variable {tokens rest : List Token} {token : Token}
variable {bound fuel : Nat} {process : Option CString → CString → Nat → ConvertM Unit}

theorem Names.tail (h : Names bound (token :: tokens)) : Names bound tokens :=
  fun n v hmem => h n v (List.mem_cons_of_mem _ hmem)

theorem yields_checkAttribute (attr : Attribute) (attributes : List CString) (name : CString)
    (s : Conversion) :
    Yields (checkAttribute attr attributes name) s
      (fun checked s' => s' = s ∧ ((checked = attributes ∧ name ∉ attributes) ∨
        (checked = [] ∧ attr.isSequence = true ∧ attr.isGroup = false))) IsParse := by
  rw [checkAttribute]
  by_cases hname : name ∈ attributes
  · rw [if_pos hname]
    by_cases hgroup : attr.isGroup = true
    · rw [if_pos hgroup]
      exact Yields.throw trivial
    · rw [if_neg hgroup]
      by_cases hseq : attr.isSequence = true
      · rw [if_pos hseq]
        exact Yields.pure ⟨rfl, .inr ⟨rfl, hseq, Bool.eq_false_iff.mpr hgroup⟩⟩
      · rw [if_neg hseq]
        exact Yields.throw trivial
  · rw [if_neg hname]
    exact Yields.pure ⟨rfl, .inl ⟨rfl, hname⟩⟩

theorem yields_handBack (hready : Ready defs attr base s r opened attributes (token :: tokens))
    (htaken : Taken defs token tokens s') (houtput : s'.output = s.output)
    (hgroup : attr.isGroup = false) (hname : attr.name ≠ none)
    (hbegins : ∀ n v, token = .param n v → ¬ Begins attr n) :
    Yields ungetToken s' (fun _ s'' => Done defs attr base s r opened (token :: tokens) s'')
    IsParse := by
  refine yields_ungetToken htaken fun s'' hpending houtput' => ?_
  obtain ⟨names, hat, -⟩ := hready.levels
  refine ⟨[], token :: tokens, r, opened, rfl, ?_, hpending, .refl (houtput'.trans houtput),
    ⟨names, hat⟩, fun hopened => ?_, fun hend => ?_⟩
  · intro n v ts htokens hb
    exact absurd hb (hbegins n v (List.cons_eq_cons.mp htokens).1)
  · rcases hready.opened hopened with hnil | ⟨hgroup', -⟩ | ⟨n, v, ts, htokens, hb, -⟩
    · cases hnil
    · exact absurd (hgroup.symm.trans hgroup') Bool.false_ne_true
    · exact absurd hb (hbegins n v (List.cons_eq_cons.mp htokens).1)
  · rcases hend with hend | hend
    · exact absurd (hgroup.symm.trans hend) Bool.false_ne_true
    · exact absurd hend hname

theorem Ready.skip (hready : Ready defs attr base s r opened attributes (token :: tokens))
    (hpending : Pending defs s' tokens) (htoken : ∀ n v, token ≠ .param n v) :
    Ready defs attr base s' r opened attributes tokens := by
  obtain ⟨names, hat, hnames⟩ := hready.levels
  refine ⟨hpending, ⟨names, hat, .inr ?_⟩, fun hname group hgroup hmem => ?_, fun hopened => ?_⟩
  · exact hnames.resolve_left (List.cons_ne_nil _ _)
  · exact absurd (hready.heading hname group hgroup hmem) (List.cons_ne_nil _ _)
  · rcases hready.opened hopened with hnil | hgroup | ⟨n, v, ts, htokens, -⟩
    · cases hnil
    · exact .inr (.inl hgroup)
    · exact absurd (List.cons_eq_cons.mp htokens).1 (htoken n v)

theorem Ready.group (hplace : InPlace defs attr base)
    (hready : Ready defs attr base s r opened attributes (token :: tokens))
    (hpending : Pending defs s' tokens) (hgroup : attr.isGroup = true) :
    Ready defs attr base s' r true [] tokens := by
  obtain ⟨names, hat, -⟩ := hready.levels
  have hseq := hplace.isSequence_of_isGroup hgroup
  refine ⟨hpending, ⟨names, hat, .inr (.inl ⟨hseq, rfl⟩)⟩, fun _ _ _ hmem => (by cases hmem),
    fun _ => .inr (.inl ⟨hgroup, rfl⟩)⟩

variable {value paramName : CString} {next : ConvertM Unit}

theorem Ready.elemValue (hplace : InPlace defs attr base)
    (hready : Ready defs attr base s r opened attributes (.param attr.fullName value :: tokens))
    (htaken : Taken defs (.param attr.fullName value) tokens s') (houtput : s'.output = s.output) :
    let s'' := { s' with output := s'.output ++ [.elemValue attr.indent value (attr.indent + 4)] }
    let opened' := opened && !isGroupSub defs attr.fullName
    Prints defs s s'' r ⟨base, []⟩ opened opened' [.param attr.fullName value] ∧
      Ready defs attr base s'' ⟨base, []⟩ opened' attributes tokens := by
  obtain ⟨names, hat, -⟩ := hready.levels
  have hstarted : opened = true → isGroupSub defs attr.fullName = true →
      GroupStarted defs (fullNameOf base :: r.started) := by
    intro hopened _
    rcases hready.opened hopened with hnil | ⟨hgroup, -⟩ | ⟨n, v, ts, -, -, -, group, hgroup, hmem⟩
    · cases hnil
    · exact ⟨attr.fullName, hplace.isGroup_iff.mp hgroup, by
        rw [hplace.fullName_eq]
        exact List.mem_cons_self⟩
    · exact ⟨group, hgroup, List.mem_cons_of_mem _ hmem⟩
  refine ⟨.write (congrArg (· ++ _) houtput) ?_ (.param value hplace.fullName_eq hstarted .nil), ?_⟩
  · rw [Output.read, hat.below_eq]
  · refine ⟨htaken.pending, ⟨[], At.start hplace.base_lt, .inr (.inr (by simp))⟩,
      fun hname group hgroup hmem => ?_, fun hopened => ?_⟩
    · exact absurd (hready.heading hname group hgroup hmem) (List.cons_ne_nil _ _)
    · rw [Bool.and_eq_true_iff] at hopened
      rcases hready.opened hopened.1 with hnil | hgroup | ⟨n, v, ts, htokens, -, hsub, -⟩
      · cases hnil
      · exact .inr (.inl hgroup)
      · have hn : attr.fullName = n := (Token.param.inj (List.cons_eq_cons.mp htokens).1).1
        rw [← hn] at hsub
        rw [hsub] at hopened
        exact absurd hopened.2 Bool.false_ne_true

theorem begins_child (indent : Nat) (hle : attr.subPrefix <+: paramName) :
    Begins (attributeOf defs (some ((paramName.drop attr.subPrefix.length).takeWhile (· ≠ '.')))
      attr.subPrefix indent) paramName := by
  obtain ⟨sub, rfl⟩ := hle
  rw [List.drop_left]
  rcases DottedNames.eq_takeWhile_or '.' sub with hsub | hsub
  · exact .inl (congrArg _ hsub)
  · right
    rw [attributeOf]
    dsimp only
    rw [List.append_assoc]
    exact (List.prefix_append_right_inj _).mpr hsub

theorem length_child_le (hle : attr.subPrefix <+: paramName) :
    (attr.subPrefix ++ (paramName.drop attr.subPrefix.length).takeWhile (· ≠ '.')).length ≤
      paramName.length := by
  obtain ⟨sub, rfl⟩ := hle
  rw [List.drop_left, List.length_append, List.length_append]
  exact Nat.add_le_add_left (List.takeWhile_prefix _).length_le _

theorem Ready.enter (hplace : InPlace defs attr base) {checked : List CString} {name : CString}
    (hready : Ready defs attr base s r opened attributes (.param paramName value :: tokens))
    (hchecked : (checked = attributes ∧ name ∉ attributes) ∨
      (checked = [] ∧ attr.isSequence = true ∧ attr.isGroup = false)) :
    ∃ level : Level CString, level.name = name ∧ level.column = attr.indent ∧
      Output.read r (.attributeName (attr.isSequence && checked.isEmpty) attr.indent name) =
        some (⟨level :: base, if attr.isSequence && checked.isEmpty then attr.fullName :: r.started
          else r.started⟩, []) ∧
      ∀ n ∈ level.names, n ∈ name :: checked := by
  obtain ⟨names, hat, hnames⟩ := hready.levels
  have hnames := hnames.resolve_left (List.cons_ne_nil _ _)
  -- without a new element the names of the map are in the set
  have hold : (attr.isSequence && checked.isEmpty) = false →
      (∀ n ∈ names, n ∈ attributes) ∧ checked = attributes ∧ name ∉ attributes := by
    intro helem
    have hne : attr.isSequence = true → checked ≠ [] := by
      rintro hseq rfl
      rw [hseq] at helem
      exact Bool.noConfusion helem
    rcases hchecked with ⟨rfl, hname⟩ | ⟨hnil, hseq, -⟩
    · rcases hnames with ⟨hseq, hnil⟩ | hnames
      · exact absurd hnil (hne hseq)
      · exact ⟨hnames, rfl, hname⟩
    · exact absurd hnil (hne hseq)
  have hname : (attr.isSequence && checked.isEmpty) = true ∨ name ∉ names := by
    cases helem : (attr.isSequence && checked.isEmpty) with
    | true => exact .inl rfl
    | false =>
      obtain ⟨hsub, -, hname⟩ := hold helem
      exact .inr fun hmem => hname (hsub name hmem)
  obtain ⟨level, henter, hcolumn, hlevel, hearlier⟩ := hat.enter_eq hname
  refine ⟨level, hlevel, hcolumn, ?_, fun n hn => ?_⟩
  · rw [Output.read, henter, hat.below_eq, hplace.fullName_eq]
    rfl
  · rcases List.mem_cons.mp hn with rfl | hn
    · rw [hlevel]
      exact List.mem_cons_self
    · obtain ⟨helem, hmem⟩ := hearlier n hn
      obtain ⟨hsub, rfl, -⟩ := hold helem
      exact List.mem_cons_of_mem _ (hsub n hmem)

theorem Ready.openedOk_child (hplace : InPlace defs attr base) {checked : List CString}
    (indent : Nat)
    (hready : Ready defs attr base s r opened attributes (.param paramName value :: tokens))
    (hchecked : checked = attributes ∨ checked = []) (hle : attr.subPrefix <+: paramName) :
    OpenedOk defs (attributeOf defs (some ((paramName.drop attr.subPrefix.length).takeWhile (· ≠ '.')))
        attr.subPrefix indent) []
      (if attr.isSequence && checked.isEmpty then attr.fullName :: r.started else r.started) opened
      (.param paramName value :: tokens) := by
  intro hopened
  refine .inr (.inr ⟨paramName, value, tokens, rfl, begins_child indent hle, ?_⟩)
  rcases hready.opened hopened with hnil | ⟨hgroup, rfl⟩ | ⟨n, v, ts, htokens, -, hsub, hstarted⟩
  · cases hnil
  · have hchecked : checked = [] := hchecked.elim id id
    have hparam := hplace.isGroup_iff.mp hgroup
    have hseq := hplace.isSequence_of_isGroup hgroup
    have hname : attr.name ≠ none := fun hname =>
      Bool.false_ne_true ((hplace.document hname).2.2.2.symm.trans hseq)
    rw [hseq, hchecked]
    refine ⟨?_, attr.fullName, hparam, List.mem_cons_self⟩
    rcases hplace.subPrefix_eq with ⟨-, hnil⟩ | hpre
    · exact absurd hnil (defs.groupParam_ne_nil _ hparam)
    · rw [hpre] at hle
      rw [isGroupSub, hparam]
      exact List.isPrefixOf_iff_prefix.mpr hle
  · obtain ⟨rfl, -⟩ := Token.param.inj (List.cons_eq_cons.mp htokens).1
    refine ⟨hsub, ?_⟩
    obtain ⟨group, hgroup, hmem⟩ := hstarted
    split
    · exact ⟨group, hgroup, List.mem_cons_of_mem _ hmem⟩
    · exact ⟨group, hgroup, hmem⟩

theorem Ready.afterChild {level : Level CString} {child : Attribute} {consumed : List Token}
    (hresult : Result defs child (level :: base) s r opened consumed rest s' r' opened')
    (hbase : ∀ l ∈ base, l.column < level.column)
    (hcolumn : level.column = attr.indent) (hnames : ∀ n ∈ level.names, n ∈ attributes)
    (hheading : attr.name = none → ∀ group ∈ defs.groupParam, group ∈ attributes → rest = []) :
    Ready defs attr base s' r' opened' attributes rest := by
  obtain ⟨names, hat⟩ := hresult.levels
  have hparent := hat.parent hbase
  rw [hcolumn] at hparent
  exact ⟨hresult.pending, ⟨level.names, hparent, .inr (.inr hnames)⟩, hheading,
    fun hopened => .inl (hresult.opened_end hopened)⟩

theorem yields_subparameter (hplace : InPlace defs attr base)
    (hprocess : Processes defs bound fuel process) {paramName value : CString}
    (hready : Ready defs attr base s r opened attributes (.param paramName value :: tokens))
    (htaken : Taken defs (.param paramName value) tokens s') (houtput : s'.output = s.output)
    (hnames : Names bound (.param paramName value :: tokens)) (hle : attr.subPrefix <+: paramName)
    (hfuel : tokens.length + 2 + (bound - attr.fullName.length) ≤ fuel)
    {name : CString} (hname : name = (paramName.drop attr.subPrefix.length).takeWhile (· ≠ '.'))
    (hne : name ≠ []) {next : List CString → ConvertM Unit}
    (hnext : ∀ s r opened attributes rest, rest <:+ tokens →
      Ready defs attr base s r opened attributes rest →
      Yields (next attributes) s (fun _ s' => Done defs attr base s r opened rest s') IsParse) :
    Yields (do
      let attributes ← checkAttribute attr attributes name
      write (.attributeName (attr.isSequence && attributes.isEmpty) attr.indent name)
      ungetToken
      process (some name) attr.subPrefix (attr.indent + 4)
      next (name :: attributes)) s'
      (fun _ s'' => Done defs attr base s r opened (.param paramName value :: tokens) s'') IsParse := by
  refine (yields_checkAttribute attr attributes name s').bind fun checked s1 ⟨hs1, hchecked⟩ => ?_
  subst hs1
  obtain ⟨level, hlevel, hcolumn, hread, hmem⟩ := hready.enter hplace hchecked
  generalize helem : (attr.isSequence && checked.isEmpty) = elem at hread ⊢
  have hwritten : Prints defs s
      { s1 with output := s1.output ++ [.attributeName elem attr.indent name] } r
      ⟨level :: base, if elem then attr.fullName :: r.started else r.started⟩ opened opened [] :=
    .write (congrArg (· ++ _) houtput) hread .nil
  refine Yields.bind (yields_write (P := fun _ s2 =>
    Taken defs (.param paramName value) tokens s2 ∧ Prints defs s s2 r _ opened opened [])
    ⟨⟨htaken.1, htaken.2, htaken.3, htaken.4⟩, hwritten⟩) fun _ s2 ⟨htaken2, hprints2⟩ => ?_
  refine Yields.bind (yields_ungetToken htaken2 (P := fun _ s3 =>
    Pending defs s3 (.param paramName value :: tokens) ∧ Prints defs s s3 r _ opened opened [])
    fun s3 hpending hsame => ⟨hpending, hprints2.trans (.refl hsame)⟩) fun _ s3
    ⟨hpending3, hprints3⟩ => ?_
  have hbase : ∀ l ∈ level :: base, l.column < attr.indent + 4 := by
    intro l hl
    rcases List.mem_cons.mp hl with rfl | hl
    · omega
    · exact (hplace.base_lt l hl).trans (Nat.lt_add_of_pos_right (by decide))
  have hchild := hplace.child hbase
  rw [hlevel] at hchild
  have hlength : (attr.subPrefix ++ name).length ≤ bound := by
    rw [hname]
    exact (length_child_le hle).trans (hnames _ _ List.mem_cons_self).2
  have hlonger : attr.fullName.length < (attr.subPrefix ++ name).length := by
    have hpos := List.length_pos_iff.mpr hne
    rw [List.length_append]
    rcases hplace.subPrefix_eq with ⟨-, hnil⟩ | heq
    · rw [hnil, List.length_nil]
      omega
    · rw [heq, List.length_append]
      omega
  have hopenedOk := hready.openedOk_child hplace (attr.indent + 4)
    (hchecked.elim (fun h => .inl h.1) fun h => .inr h.1) hle
  rw [← hname, helem] at hopenedOk
  have hbegins : Begins (attributeOf defs (some name) attr.subPrefix (attr.indent + 4)) paramName := by
    rw [hname]
    exact begins_child _ hle
  refine Yields.bind (hprocess name attr.subPrefix (attr.indent + 4) (level :: base) s3
    ⟨level :: base, if elem then attr.fullName :: r.started else r.started⟩ opened _ hchild rfl
    hpending3 hopenedOk (.inr ⟨paramName, value, tokens, rfl, hbegins⟩) hnames
    (by rw [List.length_cons]; omega)) ?_
  rintro _ s4 ⟨consumed, rest, r4, opened4, htokens, hconsumed, hresult⟩
  have hne' := hconsumed paramName value tokens rfl hbegins
  have hsuffix : rest <:+ tokens := by
    obtain ⟨token, consumed, rfl⟩ := List.exists_cons_of_ne_nil hne'
    exact ⟨consumed, (List.cons_eq_cons.mp htokens).2.symm⟩
  have hready' : Ready defs attr base s4 r4 opened4 (name :: checked) rest := by
    refine Ready.afterChild hresult ?_ hcolumn hmem fun hdoc group hgroup hin => ?_
    · rw [hcolumn]
      exact hplace.base_lt
    · -- the attribute was the group, or there is a contradiction
      rcases List.mem_cons.mp hin with rfl | hin
      · apply hresult.group_end
        left
        rw [hchild.isGroup_iff]
        refine hgroup.trans (congrArg some ?_)
        rw [attributeOf, (hplace.document hdoc).1]
        rfl
      · rcases hchecked with ⟨rfl, -⟩ | ⟨rfl, -⟩
        · exact absurd (hready.heading hdoc group hgroup hin) (List.cons_ne_nil _ _)
        · cases hin
  refine (hnext s4 r4 opened4 _ rest hsuffix hready').mono (fun _ s5 hdone => ?_) fun _ he => he
  rw [htokens]
  exact hdone.after hne' (hprints3.trans hresult.prints)

theorem yields_groupSection (hplace : InPlace defs attr base)
    (hprocess : Processes defs bound fuel process)
    (hready : Ready defs attr base s r opened attributes (.group :: tokens))
    (htaken : Taken defs .group tokens s') (houtput : s'.output = s.output)
    (hnames : Names bound tokens) (hname : attr.name = none)
    (hfuel : tokens.length + 2 + (bound - attr.fullName.length) ≤ fuel) {group : CString}
    (hgroup : defs.groupParam = some group)
    (hnext : ∀ s r opened rest, rest <:+ tokens → Ready defs attr base s r opened attributes rest →
      Yields next s (fun _ s' => Done defs attr base s r opened rest s') IsParse) :
    Yields (do
      write (.groupName group)
      process (some group) attr.subPrefix 4
      next) s'
      (fun _ s'' => Done defs attr base s r opened (.group :: tokens) s'') IsParse := by
  obtain ⟨hnil, hindent, rfl, hnoseq⟩ := hplace.document hname
  obtain ⟨names, hat, hsub⟩ := hready.levels
  have hsub := (hsub.resolve_left (List.cons_ne_nil _ _)).resolve_left fun h =>
    Bool.false_ne_true (hnoseq.symm.trans h.1)
  have hnew : group ∉ names := fun hmem =>
    absurd (hready.heading hname group hgroup (hsub group hmem)) (List.cons_ne_nil _ _)
  rw [hindent] at hat
  obtain ⟨level, henter, hcolumn, hlevel, hearlier⟩ := hat.enter_eq (.inr hnew)
  have hread : Output.read r (.groupName group) = some (⟨[level], r.started⟩, []) := by
    rw [Output.read, henter]
    rfl
  have hwritten : Prints defs s { s' with output := s'.output ++ [.groupName group] } r
      ⟨[level], r.started⟩ opened opened [] :=
    .write (congrArg (· ++ _) houtput) hread .nil
  refine Yields.bind (yields_write (P := fun _ s2 =>
    Pending defs s2 tokens ∧ Prints defs s s2 r _ opened opened [])
    ⟨.inl ⟨htaken.1, htaken.3⟩, hwritten⟩) fun _ s2 ⟨hpending2, hprints2⟩ => ?_
  have hbase : ∀ l ∈ level :: ([] : List (Level CString)), l.column < 4 := by
    intro l hl
    rw [List.mem_singleton.mp hl, hcolumn]
    decide
  have hchild := hplace.child hbase
  rw [hlevel] at hchild
  have hisGroup : (attributeOf defs (some group) attr.subPrefix 4).isGroup = true := by
    rw [hchild.isGroup_iff, attributeOf, hnil]
    exact hgroup
  have hline : Prints defs s2 s2 ⟨[level], r.started⟩ ⟨[level], r.started⟩ opened true [.group] :=
    ⟨[], [], (List.append_nil _).symm, rfl, .group .nil⟩
  have hfullName : attr.fullName = [] := by
    rcases hplace.subPrefix_eq with ⟨-, heq⟩ | heq
    · exact heq
    · rw [hnil] at heq
      exact absurd heq.symm (List.append_ne_nil_of_right_ne_nil _ (List.cons_ne_nil _ _))
  rw [hfullName, List.length_nil] at hfuel
  refine Yields.bind (hprocess group attr.subPrefix 4 [level] s2
    ⟨[level], r.started⟩ true tokens hchild rfl hpending2
    (fun _ => .inr (.inl ⟨hisGroup, rfl⟩)) (.inl (hchild.isSequence_of_isGroup hisGroup)) hnames
    (by omega)) ?_
  rintro _ s3 ⟨consumed, rest, r3, opened3, htokens, -, hresult⟩
  have hrest : rest = [] := hresult.group_end (.inl hisGroup)
  have hready' : Ready defs attr [] s3 r3 opened3 attributes rest := by
    obtain ⟨names, hat⟩ := hresult.levels
    have hparent := hat.parent (fun l hl => by cases hl)
    rw [hcolumn, ← hindent] at hparent
    exact ⟨hresult.pending, ⟨level.names, hparent, .inl hrest⟩, fun _ _ _ _ => hrest,
      fun _ => .inl hrest⟩
  refine (hnext s3 r3 opened3 rest ⟨consumed, htokens.symm⟩ hready').mono (fun _ s4 hdone => ?_)
    fun _ he => he
  rw [htokens, ← List.cons_append]
  exact hdone.after (List.cons_ne_nil _ _) ((hprints2.trans hline).trans hresult.prints)

theorem yields_printed {item : Item}
    (hready : Ready defs attr base s r opened attributes (token :: tokens))
    (htaken : Taken defs token tokens s') (houtput : s'.output = s.output)
    (htoken : ∀ n v, token ≠ .param n v) (hread : Output.read r output = some (r, [item]))
    (hfollows : Follows defs opened [token] [item] opened)
    (hnext : ∀ s, Ready defs attr base s r opened attributes tokens →
      Yields next s (fun _ s' => Done defs attr base s r opened tokens s') IsParse) :
    Yields (do
      write output
      next) s'
      (fun _ s'' => Done defs attr base s r opened (token :: tokens) s'') IsParse := by
  refine Yields.bind (yields_write (P := fun _ s2 =>
    Pending defs s2 tokens ∧ Prints defs s s2 r r opened opened [token])
    ⟨.inl ⟨htaken.1, htaken.3⟩, .write (congrArg (· ++ _) houtput) hread hfollows⟩)
    fun _ s2 ⟨hpending, hprints⟩ => ?_
  refine (hnext s2 (hready.skip hpending htoken)).mono (fun _ s3 hdone => ?_) fun _ he => he
  exact hdone.after (List.cons_ne_nil token []) hprints

section

variable (hplace : InPlace defs attr base)
include hplace

theorem component_ne_nil {paramName : CString}
    (hle : attr.subPrefix <+: paramName) (hproper : DottedNames.Proper '.' paramName) :
    (paramName.drop attr.subPrefix.length).takeWhile (· ≠ '.') ≠ [] := by
  obtain ⟨sub, rfl⟩ := hle
  rw [List.drop_left]
  rcases hplace.subPrefix_eq with ⟨hnil, -⟩ | heq
  · rw [hnil, List.nil_append] at hproper
    exact hproper.takeWhile_ne_nil
  · rw [heq, List.append_assoc] at hproper
    exact hproper.right.takeWhile_ne_nil

theorem yields_param
    (hprocess : Processes defs bound fuel process)
    (hready : Ready defs attr base s r opened attributes (.param paramName value :: tokens))
    (htaken : Taken defs (.param paramName value) tokens s') (houtput : s'.output = s.output)
    (hnames : Names bound (.param paramName value :: tokens))
    (hfuel : tokens.length + 2 + (bound - attr.fullName.length) ≤ fuel)
    {next : List CString → ConvertM Unit} (hnext : ∀ s r opened attributes rest, rest <:+ tokens →
      Ready defs attr base s r opened attributes rest →
      Yields (next attributes) s (fun _ s' => Done defs attr base s r opened rest s') IsParse) :
    Yields (
      if paramName = attr.fullName then
        if !attr.isSequence then throw (.parse (.simpleAndComplex attr.fullName))
        else do
          write (.elemValue attr.indent value (attr.indent + 4))
          next attributes
      else if !attr.subPrefix.isPrefixOf paramName then
        if attr.isGroup then throw (.parse .groupExited)
        else ungetToken
      else
        let attributeName := (paramName.drop attr.subPrefix.length).takeWhile (· ≠ '.')
        if attributeName = [] then throw .attributeError
        else do
          let attributes ← checkAttribute attr attributes attributeName
          write (.attributeName (attr.isSequence && attributes.isEmpty) attr.indent attributeName)
          ungetToken
          process (some attributeName) attr.subPrefix (attr.indent + 4)
          next (attributeName :: attributes)) s'
      (fun _ s'' => Done defs attr base s r opened (.param paramName value :: tokens) s'') IsParse := by
  by_cases hfull : paramName = attr.fullName
  · rw [if_pos hfull]
    subst hfull
    by_cases hseq : attr.isSequence = true
    · rw [hseq, if_neg (by decide)]
      obtain ⟨hprints, hready'⟩ := hready.elemValue hplace htaken houtput
      refine Yields.bind (yields_write (P := fun _ s2 => s2 = _) rfl) ?_
      rintro _ s2 rfl
      refine (hnext _ _ _ attributes tokens (List.suffix_refl _) hready').mono
        (fun _ s3 hdone => ?_) fun _ he => he
      exact hdone.after (List.cons_ne_nil _ []) hprints
    · rw [Bool.not_eq_true] at hseq
      rw [hseq, if_pos (by decide)]
      exact Yields.throw trivial
  · rw [if_neg hfull]
    by_cases hle : attr.subPrefix <+: paramName
    · have hbelow : attr.subPrefix.isPrefixOf paramName = true := List.isPrefixOf_iff_prefix.mpr hle
      have hne := component_ne_nil hplace hle (hnames paramName value List.mem_cons_self).1
      rw [hbelow, if_neg (by decide), if_neg hne]
      exact yields_subparameter hplace hprocess hready htaken houtput hnames hle hfuel rfl hne hnext
    · have hbelow : attr.subPrefix.isPrefixOf paramName = false := by
        rw [Bool.eq_false_iff, ne_eq, List.isPrefixOf_iff_prefix]
        exact hle
      rw [hbelow, if_pos (by decide)]
      by_cases hgroup : attr.isGroup = true
      · rw [if_pos hgroup]
        exact Yields.throw trivial
      · rw [if_neg hgroup]
        refine yields_handBack hready htaken houtput (Bool.eq_false_iff.mpr hgroup) ?_ ?_
        · intro hname
          rw [(hplace.document hname).1] at hle
          exact hle List.nil_prefix
        · rintro n v htoken hbegins
          obtain ⟨rfl, -⟩ := Token.param.inj htoken
          exact hbegins.elim hfull hle

theorem yields_group
    (hprocess : Processes defs bound fuel process)
    (hready : Ready defs attr base s r opened attributes (.group :: tokens))
    (htaken : Taken defs .group tokens s') (houtput : s'.output = s.output)
    (hnames : Names bound tokens)
    (hfuel : tokens.length + 2 + (bound - attr.fullName.length) ≤ fuel)
    {next : List CString → ConvertM Unit}
    (hnext : ∀ s r opened attributes rest, rest <:+ tokens →
      Ready defs attr base s r opened attributes rest →
      Yields (next attributes) s (fun _ s' => Done defs attr base s r opened rest s') IsParse) :
    Yields (
      if attr.name = none then
        match defs.groupParam with
        | none => throw .typeError
        | some groupParam => do
            write (.groupName groupParam)
            process (some groupParam) attr.subPrefix 4
            next attributes
      else if attr.isGroup then next []
      else ungetToken) s'
      (fun _ s'' => Done defs attr base s r opened (.group :: tokens) s'') IsParse := by
  by_cases hname : attr.name = none
  · rw [if_pos hname]
    obtain ⟨group, hgroup⟩ := Option.ne_none_iff_exists'.mp (htaken.group rfl)
    rw [hgroup]
    exact yields_groupSection hplace hprocess hready htaken houtput hnames hname hfuel hgroup
      fun s r opened rest hsuffix hready => hnext s r opened attributes rest hsuffix hready
  · rw [if_neg hname]
    by_cases hgroup : attr.isGroup = true
    · rw [if_pos hgroup]
      have hready' : Ready defs attr base s' r true [] tokens :=
        hready.group hplace htaken.pending hgroup
      refine (hnext s' r true [] tokens (List.suffix_refl _) hready').mono (fun _ s'' hdone => ?_)
        fun _ he => he
      refine hdone.after (List.cons_ne_nil Token.group []) ?_
      exact ⟨[], [], by rw [houtput, List.append_nil], rfl, .group .nil⟩
    · rw [if_neg hgroup]
      exact yields_handBack hready htaken houtput (Bool.eq_false_iff.mpr hgroup) hname (by simp)

theorem processTokens_done
    (hprocess : Processes defs bound fuel process) (rounds : Nat) :
    ∀ attributes s r opened tokens, tokens.length < rounds →
      Ready defs attr base s r opened attributes tokens → Names bound tokens →
      tokens.length + 1 + (bound - attr.fullName.length) ≤ fuel →
      Yields (processTokens defs process attr rounds attributes) s
        (fun _ s' => Done defs attr base s r opened tokens s') IsParse := by
  induction rounds with
  | zero => exact fun _ _ _ _ _ hrounds => absurd hrounds (Nat.not_lt_zero _)
  | succ rounds ih =>
    intro attributes s r opened tokens hrounds hready hnames hfuel
    rw [processTokens]
    cases tokens with
    | nil =>
      obtain ⟨names, hat, -⟩ := hready.levels
      refine (yields_getToken_nil hready.pending (P := fun token s' =>
        token = none ∧ Pending defs s' [] ∧ s'.output = s.output)
        fun s' hpending houtput => ⟨rfl, hpending, houtput⟩).bind ?_
      rintro _ s' ⟨rfl, hpending, houtput⟩
      exact Yields.pure ⟨[], [], r, opened, rfl, fun _ _ _ htokens _ => (by cases htokens),
        hpending, .refl houtput, ⟨names, hat⟩, fun _ => rfl, fun _ => rfl⟩
    | cons token tokens =>
      rw [List.length_cons] at hrounds hfuel
      have hrest : ∀ s r opened attributes rest, rest <:+ tokens →
          Ready defs attr base s r opened attributes rest →
          Yields (processTokens defs process attr rounds attributes) s
            (fun _ s' => Done defs attr base s r opened rest s') IsParse := by
        intro s r opened attributes rest hrest hready
        have hlength := hrest.length_le
        exact ih attributes s r opened rest (by omega) hready
          (fun n v hmem => hnames.tail n v (hrest.subset hmem)) (by omega)
      refine (yields_getToken_cons hready.pending (P := fun t s' =>
        t = some token ∧ Taken defs token tokens s' ∧ s'.output = s.output)
        fun s' htaken houtput => ⟨rfl, htaken, houtput⟩).bind ?_
      rintro _ s' ⟨rfl, htaken, houtput⟩
      cases token with
      | empty =>
        exact yields_printed hready htaken houtput (by simp) rfl (.empty .nil)
          fun s hready => hrest s r opened attributes tokens (List.suffix_refl _) hready
      | comment c =>
        exact yields_printed hready htaken houtput (by simp) rfl (.comment c .nil)
          fun s hready => hrest s r opened attributes tokens (List.suffix_refl _) hready
      | group =>
        exact yields_group hplace hprocess hready htaken houtput hnames.tail (by omega) hrest
      | param paramName value =>
        exact yields_param hplace hprocess hready htaken houtput hnames (by omega) hrest

theorem Ready.start (hlevels : r.levels = base)
    (hpending : Pending defs s tokens) (hopened : OpenedOk defs attr [] r.started opened tokens) :
    Ready defs attr base s r opened [] tokens := by
  refine ⟨hpending, ⟨[], ?_, .inr (.inr (by simp))⟩, fun _ _ _ hmem => (by cases hmem), hopened⟩
  rw [hlevels]
  exact At.start hplace.base_lt

theorem yields_lineEnd (hlevels : r.levels = base)
    (hpending : Pending defs s' tokens) (houtput : s'.output = s.output)
    (hopened : OpenedOk defs attr [] r.started opened tokens)
    (hnext : ∀ s, Ready defs attr base s r opened [] tokens →
      Yields next s (fun _ s' => Done defs attr base s r opened tokens s') IsParse) :
    Yields (do
      write .lineEnd
      next) s' (fun _ s'' => Done defs attr base s r opened tokens s'') IsParse := by
  refine Yields.bind (yields_write (P := fun _ s2 =>
    Pending defs s2 tokens ∧ Prints defs s s2 r r opened opened [])
    ⟨hpending, .write (congrArg (· ++ _) houtput) rfl .nil⟩) fun _ s2 ⟨hpending2, hprints⟩ => ?_
  refine (hnext s2 (.start hplace hlevels hpending2 hopened)).mono (fun _ s3 hdone => ?_)
    fun _ he => he
  obtain ⟨consumed, rest, r3, opened3, htokens, hconsumed, hresult⟩ := hdone
  exact ⟨consumed, rest, r3, opened3, htokens, hconsumed,
    { hresult with prints := hprints.trans hresult.prints }⟩

theorem done_value (hlevels : r.levels = base)
    (htaken : Taken defs (.param attr.fullName value) tokens s') (houtput : s'.output = s.output)
    (hopened : OpenedOk defs attr [] r.started opened (.param attr.fullName value :: tokens))
    (hseq : attr.isSequence = false) (hname : attr.name ≠ none) :
    Done defs attr base s r opened (.param attr.fullName value :: tokens)
      { s' with output := s'.output ++ [.value value (attr.indent + 4)] } := by
  have hgroup : attr.isGroup = false := by
    by_contra hgroup
    exact Bool.false_ne_true
      (hseq.symm.trans (hplace.isSequence_of_isGroup (Bool.not_eq_false _ ▸ hgroup)))
  have hsub : opened = true → isGroupSub defs attr.fullName = true ∧ GroupStarted defs r.started := by
    intro h
    rcases hopened h with hnil | ⟨hgroup', -⟩ | ⟨n, v, ts, htokens, -, hsub, hstarted⟩
    · cases hnil
    · exact absurd (hgroup.symm.trans hgroup') Bool.false_ne_true
    · obtain ⟨rfl, -⟩ := Token.param.inj (List.cons_eq_cons.mp htokens).1
      exact ⟨hsub, hstarted⟩
  refine ⟨[.param attr.fullName value], tokens, ⟨base, []⟩, opened && !isGroupSub defs attr.fullName,
    rfl, fun _ _ _ _ _ => List.cons_ne_nil _ _, .inl ⟨htaken.1, htaken.3⟩, ?_,
    ⟨[], At.start hplace.base_lt⟩, fun h => ?_, fun h => ?_⟩
  · refine .write (congrArg (· ++ _) houtput) ?_
      (.param value hplace.fullName_eq (fun h _ => (hsub h).2) .nil)
    rw [Output.read, hlevels]
  · rw [Bool.and_eq_true_iff] at h
    rw [(hsub h.1).1] at h
    exact absurd h.2 Bool.false_ne_true
  · rcases h with h | h
    · exact absurd (hgroup.symm.trans h) Bool.false_ne_true
    · exact absurd h hname

end

theorem processAttribute_processes (defs : Definitions) (bound fuel : Nat) :
    Processes defs bound fuel (processAttribute defs fuel) := by
  induction fuel with
  | zero =>
    intro name parentPrefix indent base s r opened tokens _ _ _ _ _ _ hfuel
    omega
  | succ fuel ih =>
    intro name parentPrefix indent base s r opened tokens hplace hlevels hpending hopened hbegins
      hnames hfuel
    have hloop : ∀ s, Ready defs (attributeOf defs (some name) parentPrefix indent) base s r opened []
        tokens → Yields (processTokens defs (processAttribute defs fuel)
          (attributeOf defs (some name) parentPrefix indent) fuel []) s
          (fun _ s' => Done defs (attributeOf defs (some name) parentPrefix indent) base s r opened
            tokens s') IsParse := fun s hready =>
      processTokens_done hplace ih fuel [] s r opened tokens (by omega) hready hnames
        (by rw [attributeOf]; dsimp only; omega)
    have hindent : (attributeOf defs (some name) parentPrefix indent).indent = indent := rfl
    have hname : (attributeOf defs (some name) parentPrefix indent).name ≠ none :=
      Option.some_ne_none name
    rw [processAttribute]
    generalize attributeOf defs (some name) parentPrefix indent = attr at *
    rw [if_neg (Option.some_ne_none name)]
    by_cases hseq : attr.isSequence = true
    · rw [if_pos hseq]
      exact yields_lineEnd hplace hlevels hpending rfl hopened hloop
    · rw [if_neg hseq]
      obtain ⟨n, v, rest, rfl, -⟩ := hbegins.resolve_left hseq
      refine (yields_getToken_cons hpending (P := fun t s' =>
        t = some (.param n v) ∧ Taken defs (.param n v) rest s' ∧ s'.output = s.output)
        fun s' htaken houtput => ⟨rfl, htaken, houtput⟩).bind ?_
      rintro _ s' ⟨rfl, htaken, houtput⟩
      dsimp only
      by_cases hfull : n = attr.fullName
      · subst hfull
        rw [if_pos rfl, ← hindent]
        exact yields_write (done_value hplace hlevels htaken houtput hopened
          (Bool.not_eq_true _ ▸ hseq) hname)
      · rw [if_neg hfull]
        refine Yields.bind (yields_ungetToken htaken (P := fun _ s2 =>
          Pending defs s2 (.param n v :: rest) ∧ s2.output = s.output)
          fun s2 hpending hsame => ⟨hpending, hsame.trans houtput⟩) ?_
        rintro _ s2 ⟨hpending2, houtput2⟩
        exact yields_lineEnd hplace hlevels hpending2 houtput2 hopened hloop

end Loop

def Token.nameLength : Token → Nat
  | .param paramName _ => paramName.length
  | _ => 0

/-- A bound for the calls inside of each other and for the rounds of a loop. -/
def enough (tokens : List Token) : Nat := tokens.length + (tokens.map Token.nameLength).sum + 2

theorem names_of_proper {tokens : List Token}
    (h : ∀ paramName value, .param paramName value ∈ tokens → DottedNames.Proper '.' paramName) :
    Names (tokens.map Token.nameLength).sum tokens := by
  refine fun n v hmem => ⟨h n v hmem, ?_⟩
  exact List.le_sum_of_mem (List.mem_map_of_mem (f := Token.nameLength) hmem)

/-- The conversion comes to its end: with a parse error, or the output is read as the data file. -/
theorem convert_conserves (defs : Definitions) (tokens : List Token)
    (h : ∀ paramName value, .param paramName value ∈ tokens → DottedNames.Proper '.' paramName)
    {fuel : Nat} (hfuel : enough tokens ≤ fuel) :
    (∃ e, convert defs fuel tokens = .error (.parse e)) ∨
      ∃ output r items opened, convert defs fuel tokens = .ok output ∧
        readAll ⟨[], []⟩ output = some (r, items) ∧ Follows defs false tokens items opened := by
  obtain ⟨fuel, rfl⟩ := Nat.exists_eq_add_of_le' (Nat.le_of_add_left_le hfuel : 2 ≤ fuel)
  rw [enough] at hfuel
  have hplace := InPlace.document_eq defs
  have hready : Ready defs (attributeOf defs none [] 0) [] ⟨.init tokens, []⟩ ⟨[], []⟩ false
    [] tokens :=
    .start hplace rfl (.inl ⟨rfl, rfl⟩) (fun h => absurd h Bool.false_ne_true)
  have hdone := processTokens_done hplace
    (processAttribute_processes defs (tokens.map Token.nameLength).sum (fuel + 1)) (fuel + 1) [] _ _ _
    tokens (by omega) hready (names_of_proper h) (by omega)
  rw [convert, processAttribute, if_pos rfl]
  rw [Yields] at hdone
  revert hdone
  cases (processTokens defs (processAttribute defs (fuel + 1)) (attributeOf defs none [] 0) (fuel + 1)
      []).run ⟨.init tokens, []⟩ with
  | error e =>
    intro hparse
    cases e with
    | parse e => exact .inl ⟨e, rfl⟩
    | assertionError | typeError | attributeError | endless => exact hparse.elim
  | ok result =>
    obtain ⟨⟨⟩, s'⟩ := result
    rintro ⟨consumed, rest, r', opened', htokens, -, hresult⟩
    have hrest : rest = [] := hresult.group_end (.inr rfl)
    rw [hrest, List.append_nil] at htokens
    obtain ⟨written, items, houtput, hread, hfollows⟩ := hresult.prints
    rw [List.nil_append] at houtput
    rw [htokens]
    exact .inr ⟨written, r', items, opened', congrArg Except.ok houtput, hread, hfollows⟩

/-- The group parameter is `f`, and `f.a` is a sequence. -/
def sampleDefinitions : Definitions := ⟨some ['f'], [['f', '.', 'a']], by decide, by decide⟩

/-- Two groups; the first one has a sequence. -/
def sampleTokens : List Token :=
  [.comment ['c'], .group, .param ['f', '.', 'a', '.', 'n'] ['1'], .empty,
    .param ['f', '.', 'a', '.', 'n'] ['2'], .group, .param ['f', '.', 'r'] ['3']]

/-- Two groups, a comment and an empty line. -/
theorem convert_conserves_sample :
    (∃ e, convert sampleDefinitions 60 sampleTokens = .error (.parse e)) ∨
      ∃ output r items opened, convert sampleDefinitions 60 sampleTokens = .ok output ∧
        readAll ⟨[], []⟩ output = some (r, items) ∧
        Follows sampleDefinitions false sampleTokens items opened := by
  refine convert_conserves sampleDefinitions sampleTokens (fun n v hmem => ?_) (by decide)
  simp only [sampleTokens, List.mem_cons, reduceCtorEq, Token.param.injEq, List.not_mem_nil, false_or,
    or_false] at hmem
  rcases hmem with ⟨rfl, -⟩ | ⟨rfl, -⟩ | ⟨rfl, -⟩ <;> decide

example : convert sampleDefinitions 60 sampleTokens = .ok
    [.comment ['c'], .groupName ['f'], .lineEnd, .attributeName true 4 ['a'], .lineEnd,
      .attributeName true 8 ['n'], .value ['1'] 16, .emptyLine, .attributeName true 8 ['n'],
      .value ['2'] 16, .attributeName true 4 ['r'], .value ['3'] 12] := by
  decide +kernel

end DataConverter
end KedrAux
