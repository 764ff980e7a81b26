import KedrAux.Coverage.TraceWriter

/-!
# Writing and reading back

The identificator of a group is not written to the file.  When the text is read
it is derived again, from the files of the group in the order of their names.  So
the trace that is read back has the groups of the written one under derived
identificators (`read_write`), and it equals the written trace exactly when the
derived identificators are the original ones.
-/

namespace KedrAux
namespace Coverage

theorem integernz_matches_iff (c : Char) (text : Str) :
    TracePattern.integernz.Matches (c :: text) ↔
      isDigitNz c = true ∧ ∀ d ∈ text, isDigit d = true := by
  unfold Flex.Pattern.Matches Flex.Pattern.matchLength
  cases hc : isDigitNz c with
  | false => simp [TracePattern.integernz, Flex.matchHead, hc]
  | true =>
    simp only [TracePattern.integernz, Flex.matchHead, hc, if_true, List.length_nil,
      Nat.zero_add, List.length_cons, Option.some.injEq, true_and]
    rw [← List.takeWhile_eq_self_iff]
    constructor
    · intro h
      exact (List.takeWhile_prefix isDigit).eq_of_length (by omega)
    · intro h
      rw [h, Nat.add_comm]

theorem isDigit_digitChar : ∀ n, n < 10 → isDigit (Nat.digitChar n) = true := by
  decide

theorem isDigitNz_digitChar : ∀ n, n < 10 → 0 < n → isDigitNz (Nat.digitChar n) = true := by
  decide

theorem toDigits_integernz {n : Nat} (hn : 0 < n) :
    TracePattern.integernz.Matches (Nat.toDigits 10 n) := by
  induction n using Nat.strongRecOn with
  | ind n ih =>
    rw [Nat.toDigits_eq_if (by decide)]
    split_ifs with hlt
    · rw [integernz_matches_iff]
      exact ⟨isDigitNz_digitChar n hlt hn, by simp⟩
    · have hdiv : TracePattern.integernz.Matches (Nat.toDigits 10 (n / 10)) :=
        ih (n / 10) (by omega) (by omega)
      obtain ⟨c, text, htext, -⟩ := first_of_matches hdiv
      rw [htext, integernz_matches_iff] at hdiv
      rw [htext, List.cons_append, integernz_matches_iff]
      refine ⟨hdiv.1, ?_⟩
      intro d hd
      rcases List.mem_append.mp hd with hd | hd
      · exact hdiv.2 d hd
      · rw [List.mem_singleton.mp hd]
        exact isDigit_digitChar (n % 10) (by omega)

variable {n : Int} {s name : Str} {d : Directive} {out : List (Option Directive)}
variable {ds : List Directive} {endLine : Nat} {t : Trace}

theorem decimal_isNumber (hn : 0 ≤ n) : IsNumber (decimal n) := by
  obtain ⟨n, rfl⟩ := Int.eq_ofNat_of_zero_le hn
  change IsNumber (Nat.toDigits 10 n)
  rcases Nat.eq_zero_or_pos n with rfl | hpos
  · exact Or.inl rfl
  · exact Or.inr (toDigits_integernz hpos)

theorem numberValue_decimal (hn : 0 ≤ n) : (numberValue (decimal n) : Int) = n := by
  obtain ⟨n, rfl⟩ := Int.eq_ofNat_of_zero_le hn
  change ((Nat.ofDigitChars 10 (Nat.toDigits 10 n) 0 : Nat) : Int) = n
  rw [Nat.ofDigitChars_ten_toDigits]

theorem toInt_decimal (hn : 0 ≤ n) (hlt : n < 2 ^ 31) : toInt (decimal n) = n := by
  have hvalue := numberValue_decimal hn
  rw [toInt_eq, hvalue]
  unfold FitsInt
  zify
  rw [hvalue]
  exact hlt

theorem toLong_decimal (hn : 0 ≤ n) (hlt : n < 2 ^ 63) : toLong (decimal n) = n := by
  have hvalue := numberValue_decimal hn
  rw [toLong_eq, hvalue]
  unfold FitsLong
  zify
  rw [hvalue]
  exact hlt

def pushTokens (line : Nat) (ts : List Token) (lexemes : Lexemes) : Lexemes :=
  ts.foldr (fun t rest => .token line t .directive rest) lexemes

/-- The text is empty or begins with a newline. -/
def AtLineEnd (s : Str) : Prop :=
  ∀ c ∈ s.head?, c = '\n'

theorem lines_atLineEnd (ds : List Directive) : AtLineEnd (lines ds) := by
  cases ds with
  | nil => simp [AtLineEnd, lines]
  | cons d ds => simp [AtLineEnd, lines]

/-- Tokens with one spelling, which need no separator after them. -/
def Token.isPunctuation : Token → Bool
  | .minus | .comma | .colon => true
  | _ => false

/-- A character that cannot continue the token. -/
def Token.stopsAt : Token → Char → Bool
  | .number _, c => !isDigit c
  | .id _, c => !isIdChar c
  | .path _, c => !isPathChar c
  | _, _ => true

theorem scan_token_text {t : Token} (ht : t.WellFormed) (hkey : ∀ k, t ≠ .key k)
    (hs : ∀ c ∈ s.head?, t.stopsAt c = true) (line : Nat) :
    scan .directive line (t.text ++ s) = .token line t .directive (scan .directive line s) := by
  cases t with
  | key k => exact absurd rfl (hkey k)
  | number text => exact scan_number ht (by simpa [Token.stopsAt] using hs) line
  | id text => exact scan_id ht (by simpa [Token.stopsAt] using hs) line
  | path text => exact scan_path ht (by simpa [Token.stopsAt] using hs) line
  | minus => exact scan_minus line s
  | comma => exact scan_comma line s
  | colon => exact scan_colon line s

theorem Token.stopsAt_newline (t : Token) : t.stopsAt '\n' = true := by
  cases t <;> rfl

theorem Token.stopsAt_comma (t : Token) : t.stopsAt ',' = true := by
  cases t <;> rfl

theorem Token.stopsAt_of_isPunctuation {t : Token} (h : t.isPunctuation = true) (c : Char) :
    t.stopsAt c = true := by
  cases t <;> first | rfl | cases h

theorem scan_tokens {ts : List Token} (hwf : ∀ t ∈ ts, t.WellFormed ∧ ∀ k, t ≠ .key k)
    (hsep : ts.IsChain fun t t' => t.isPunctuation = true ∨ t' = .comma) (hs : AtLineEnd s)
    (line : Nat) :
    scan .directive line (ts.flatMap Token.text ++ s) =
      pushTokens line ts (scan .directive line s) := by
  induction ts with
  | nil => rfl
  | cons t ts ih =>
    obtain ⟨ht, hkey⟩ := hwf t (by simp)
    have hrest := ih (fun t' ht' => hwf t' (by simp [ht'])) hsep.tail
    have hstop : ∀ c ∈ (ts.flatMap Token.text ++ s).head?, t.stopsAt c = true := by
      cases ts with
      | nil =>
        intro c hc
        rw [hs c hc]
        exact t.stopsAt_newline
      | cons t' ts =>
        rcases (List.isChain_cons_cons.mp hsep).1 with hpunct | rfl
        · exact fun c _ => Token.stopsAt_of_isPunctuation hpunct c
        · intro c hc
          have hcomma : c = ',' := by simpa [Token.text] using hc.symm
          rw [hcomma]
          exact t.stopsAt_comma
    rw [List.flatMap_cons, List.append_assoc, scan_token_text ht hkey hstop, hrest]
    rfl

theorem Directive.tokens_wellFormed (hd : d.WellFormed) :
    ∀ t ∈ d.tokens, t.WellFormed ∧ ∀ k, t ≠ .key k := by
  cases d with
  | tn name =>
    by_cases hname : name = []
    · simp [Directive.tokens, Token.WellFormed, hname]
    · have hid : IsId name := hd.resolve_left hname
      simp [Directive.tokens, Token.WellFormed, hname, hid]
  | _ => simp_all [Directive.tokens, Token.WellFormed, Directive.WellFormed]

theorem Directive.tokens_separated (d : Directive) :
    d.tokens.IsChain fun t t' => t.isPunctuation = true ∨ t' = .comma := by
  cases d with
  | tn name => by_cases hname : name = [] <;> simp [Directive.tokens, Token.isPunctuation, hname]
  | _ => simp [Directive.tokens, Token.isPunctuation]

theorem scan_line (d : Directive) (hd : d.WellFormed) (hs : AtLineEnd s) (line : Nat) :
    scan .directive line ('\n' :: d.text ++ s) =
      .token (line + 1) (.key d.key) .directive
        (pushTokens (line + 1) d.tokens (scan .directive (line + 1) s)) := by
  have htokens := scan_tokens (Directive.tokens_wellFormed hd) d.tokens_separated hs (line + 1)
  rw [List.cons_append, scan_newline, Directive.text, List.append_assoc, ← htokens]
  by_cases heor : d = .eor
  · subst heor
    cases s with
    | nil => exact scan_eor_eof (line + 1)
    | cons c s =>
      rw [hs c rfl]
      exact scan_eor_newline (line + 1) s
  · have hcolon : ∃ ts, d.tokens = .colon :: ts := by
      cases d with
      | eor => exact absurd rfl heor
      | _ => exact ⟨_, rfl⟩
    obtain ⟨ts, hts⟩ := hcolon
    rw [hts]
    exact scan_key d.key (line + 1) (ts.flatMap Token.text ++ s)

/-- A reduction without its line; `none` is the end of a test. -/
def Reduction.outline : Reduction → Option Directive
  | .directive d _ => some d
  | .test _ => none

/-- What a run does, up to line numbers: the rules reduced and whether it accepts. -/
def ParseRun.outline (run : ParseRun) : List (Option Directive) × Bool :=
  (run.reductions.map fun r => r.1.outline, run.result.toBool)

/-- From this state the lines are accepted with the given reductions. -/
def ParsesTo (st : ParserState) (ds : List Directive) (out : List (Option Directive)) : Prop :=
  ∀ line, (parseLexemes st (scan .directive line (lines ds))).outline = (out, true)

theorem outline_prepend {run : ParseRun} (h : run.outline = (out, true)) (rs : List Reduction)
    (sc : StartCondition) :
    (run.prepend rs sc).outline = (rs.map Reduction.outline ++ out, true) := by
  simp only [ParseRun.outline, Prod.mk.injEq] at h
  simp [ParseRun.outline, ParseRun.prepend, h.1, h.2]

@[simp] theorem lines_cons (d : Directive) (ds : List Directive) :
    lines (d :: ds) = '\n' :: d.text ++ lines ds := rfl

theorem ParsesTo.section (h : ParsesTo .source ds out) (hd : d.WellFormed)
    (hsection : (Reduction.directive d 0).inSection = true) :
    ParsesTo .source (d :: ds) (some d :: out) := by
  intro line
  rw [lines_cons, scan_line d hd (lines_atLineEnd ds)]
  have hprepend := outline_prepend (h (line + 1)) [.directive d (line + 1)] .directive
  cases d with
  | tn name => cases hsection
  | sf path => cases hsection
  | eor => cases hsection
  | _ => exact hprepend

theorem ParsesTo.eor (h : ∀ endLine, ParsesTo (.test endLine) ds out) :
    ParsesTo .source (.eor :: ds) (some .eor :: out) := by
  intro line
  rw [lines_cons, scan_line .eor trivial (lines_atLineEnd ds)]
  exact outline_prepend (h (line + 1) (line + 1)) [.directive .eor (line + 1)] .directive

theorem ParsesTo.sf {path : Str} (h : ParsesTo .source ds out) (hpath : IsPath path) :
    ParsesTo (.test endLine) (.sf path :: ds) (some (.sf path) :: out) := by
  intro line
  rw [lines_cons, scan_line (.sf path) hpath (lines_atLineEnd ds)]
  exact outline_prepend (h (line + 1)) [.directive (.sf path) (line + 1)] .directive

theorem scan_lines_first (hds : ∀ d ∈ ds, d.WellFormed) (line : Nat) :
    scan .directive line (lines ds) = .eof line .directive ∨
    ∃ k rest, scan .directive line (lines ds) = .token (line + 1) (.key k) .directive rest := by
  cases ds with
  | nil => exact Or.inl rfl
  | cons d ds =>
    right
    exact ⟨d.key, _, scan_line d (hds d (by simp)) (lines_atLineEnd ds) line⟩

theorem ParsesTo.tn (h : ∀ endLine, ParsesTo (.test endLine) ds out) (hname : name = [] ∨ IsId name)
    (hds : ∀ d ∈ ds, d.WellFormed) :
    ParsesTo .trace (.tn name :: ds) (some (.tn name) :: out) := by
  intro line
  rw [lines_cons, scan_line (.tn name) hname (lines_atLineEnd ds)]
  have htest := h (line + 1) (line + 1)
  have hprepend := outline_prepend htest [.directive (.tn name) (line + 1)] .directive
  by_cases hempty : name = []
  · subst hempty
    change (parseLexemes (.tnColon (line + 1) (line + 1))
      (scan .directive (line + 1) (lines ds))).outline = _
    rcases scan_lines_first hds (line + 1) with hscan | ⟨k, rest, hscan⟩
    · rw [hscan] at htest ⊢
      cases htest
      rfl
    · -- the keyword of the next directive completes `TN:`
      rw [hscan] at htest ⊢
      cases k with
      | sf
      | tn => exact outline_prepend htest [.directive (.tn []) (line + 1)] .directive
      | _ => cases htest
  · simp only [Directive.tokens, hempty, if_false]
    exact hprepend

theorem ParsesTo.testEnd_tn (h : ParsesTo .trace (.tn name :: ds) out)
    (hname : name = [] ∨ IsId name) :
    ParsesTo (.test endLine) (.tn name :: ds) (none :: out) := by
  intro line
  have htrace := h line
  rw [lines_cons, scan_line (.tn name) hname (lines_atLineEnd ds)] at htrace ⊢
  exact outline_prepend htrace [.test endLine] .directive

theorem parsesTo_testEnd (endLine : Nat) : ParsesTo (.test endLine) [] [none] :=
  fun _ => rfl

theorem countEntries_isNumber {K V : Type*} (p : V → Bool) (entries : List (K × V)) :
    IsNumber (decimal (countEntries p entries)) :=
  decimal_isNumber (Int.natCast_nonneg _)

theorem FileInfo.Complete.directives {fi : FileInfo} (h : fi.Complete) :
    ∀ d ∈ fileDirectives fi,
      d.WellFormed ∧ (Reduction.directive d 0).inSection = true := by
  intro d hd
  simp only [fileDirectives, List.mem_append, List.mem_flatMap, List.mem_map, List.mem_cons,
    List.not_mem_nil, or_false, or_assoc] at hd
  rcases hd with ⟨⟨n, fn⟩, hfn, hd⟩ | ⟨⟨n, fn⟩, hfn, rfl⟩ | rfl | rfl | ⟨⟨b, c⟩, hb, rfl⟩ |
    rfl | rfl | ⟨⟨l, c⟩, hl, rfl⟩ | rfl | rfl
  case inl =>
    rw [← OrderedMap.find_eq_some_iff] at hfn
    split_ifs at hd with hline
    · rw [List.mem_singleton.mp hd]
      have hrange := (h.functionLines n fn hfn).1
      have hnonneg : 0 ≤ fn.lineStart := by
        simp only at hline
        omega
      exact ⟨⟨decimal_isNumber hnonneg, h.functionNames n fn hfn⟩, rfl⟩
    · cases hd
  case inr.inl =>
    rw [← OrderedMap.find_eq_some_iff] at hfn
    exact ⟨⟨decimal_isNumber (h.functions n fn hfn id).1, h.functionNames n fn hfn⟩, rfl⟩
  case inr.inr.inr.inr.inl =>
    rw [← OrderedMap.find_eq_some_iff] at hb
    obtain ⟨hline, hblock, hbranch, hc, -⟩ := h.branches b c hb
    split_ifs with hdash
    · have hnonneg : 0 ≤ c := by
        simp only at hdash
        omega
      exact ⟨⟨decimal_isNumber hline.1, decimal_isNumber hblock.1, decimal_isNumber hbranch.1,
        decimal_isNumber hnonneg⟩, rfl⟩
    · exact ⟨⟨decimal_isNumber hline.1, decimal_isNumber hblock.1,
        decimal_isNumber hbranch.1⟩, rfl⟩
  case inr.inr.inr.inr.inr.inr.inr.inl =>
    rw [← OrderedMap.find_eq_some_iff] at hl
    obtain ⟨hline, -, hc, -⟩ := h.lines l c hl
    exact ⟨⟨decimal_isNumber hline, decimal_isNumber hc⟩, rfl⟩
  all_goals exact ⟨countEntries_isNumber _ _, rfl⟩

theorem ParsesTo.sections {ds' : List Directive}
    (hds' : ∀ d ∈ ds', d.WellFormed ∧ (Reduction.directive d 0).inSection = true)
    (h : ParsesTo .source ds out) :
    ParsesTo .source (ds' ++ ds) (ds'.map some ++ out) := by
  induction ds' with
  | nil => exact h
  | cons d ds' ih =>
    obtain ⟨hd, hsection⟩ := hds' d (by simp)
    exact (ih fun d' hd' => hds' d' (by simp [hd'])).section hd hsection

def WritableFile (file : Str × FileInfo) : Prop :=
  IsPath file.1 ∧ file.2.Complete

theorem ParsesTo.sources {files : List (Str × FileInfo)}
    (hfiles : ∀ file ∈ files, WritableFile file)
    (h : ∀ endLine, ParsesTo (.test endLine) ds out) :
    ∀ endLine, ParsesTo (.test endLine) (files.flatMap sourceDirectives ++ ds)
      ((files.flatMap sourceDirectives).map some ++ out) := by
  induction files with
  | nil => exact h
  | cons file files ih =>
    intro endLine
    obtain ⟨hpath, hcomplete⟩ := hfiles file (by simp)
    have hrest := ih fun file' hfile' => hfiles file' (by simp [hfile'])
    have hsource : ParsesTo (.test endLine) _ _ :=
      (ParsesTo.sections hcomplete.directives (ParsesTo.eor hrest)).sf hpath
    simpa [sourceDirectives] using hsource

def WritableGroup (group : FileGroupID × FileGroupInfo) : Prop :=
  (group.1.testName = [] ∨ IsId group.1.testName) ∧
    ∀ file ∈ group.2.files.entries, WritableFile file

theorem WritableFile.directives {file : Str × FileInfo} (h : WritableFile file) :
    ∀ d ∈ sourceDirectives file, d.WellFormed := by
  intro d hd
  simp only [sourceDirectives, List.mem_cons, List.mem_append, List.not_mem_nil,
    or_false] at hd
  rcases hd with rfl | hd | rfl
  · exact h.1
  · exact (h.2.directives d hd).1
  · trivial

theorem WritableGroup.directives {group : FileGroupID × FileGroupInfo} (h : WritableGroup group) :
    ∀ d ∈ groupDirectives group, d.WellFormed := by
  intro d hd
  rcases List.mem_cons.mp hd with rfl | hd
  · exact h.1
  · obtain ⟨file, hfile, hd⟩ := List.mem_flatMap.mp hd
    exact (h.2 file hfile).directives d hd

def groupOutline (group : FileGroupID × FileGroupInfo) : List (Option Directive) :=
  (groupDirectives group).map some ++ [none]

theorem parsesTo_groups {groups : List (FileGroupID × FileGroupInfo)}
    (hgroups : ∀ group ∈ groups, WritableGroup group) (hn : groups ≠ []) :
    ParsesTo .trace (groups.flatMap groupDirectives) (groups.flatMap groupOutline) := by
  induction groups with
  | nil => exact absurd rfl hn
  | cons group groups ih =>
    have hgroup := hgroups group (by simp)
    have hothers : ∀ g ∈ groups, WritableGroup g := fun g hg => hgroups g (by simp [hg])
    have hend : ∀ endLine, ParsesTo (.test endLine) (groups.flatMap groupDirectives)
        (none :: groups.flatMap groupOutline) := by
      intro endLine
      cases groups with
      | nil => exact parsesTo_testEnd endLine
      | cons next groups =>
        exact (ih hothers (by simp)).testEnd_tn (hothers next (by simp)).1
    have hwf : ∀ d, d ∈ group.2.files.entries.flatMap sourceDirectives ++
        groups.flatMap groupDirectives → d.WellFormed := by
      intro d hd
      rcases List.mem_append.mp hd with hd | hd
      · exact hgroup.directives d (List.mem_cons_of_mem _ hd)
      · obtain ⟨g, hg, hd⟩ := List.mem_flatMap.mp hd
        exact (hothers g hg).directives d hd
    have htest := ParsesTo.sources hgroup.2 hend
    have htn := ParsesTo.tn htest hgroup.1 hwf
    simpa [groupDirectives, groupOutline] using htn

theorem Trace.Writable.group (ht : t.Writable) :
    ∀ group ∈ t.fileGroups.entries,
      WritableGroup group ∧ group.2.files.entries ≠ [] := by
  intro group hgroup
  obtain ⟨g, gi⟩ := group
  rw [← OrderedMap.find_eq_some_iff] at hgroup
  refine ⟨⟨ht.testName g gi hgroup, ?_⟩, ?_⟩
  · rintro ⟨f, fi⟩ hfile
    rw [← OrderedMap.find_eq_some_iff] at hfile
    exact ⟨ht.path g gi f fi hgroup hfile, ht.file g gi f fi hgroup hfile⟩
  · intro hempty
    obtain ⟨fi, hfi⟩ := Option.isSome_iff_exists.mp (ht.groups.own_file g gi hgroup)
    rw [OrderedMap.find_eq_some_iff, hempty] at hfi
    cases hfi

def Trace.outline (t : Trace) : List (Option Directive) :=
  if t.fileGroups.entries = [] then [some (.tn []), none]
  else t.fileGroups.entries.flatMap groupOutline

theorem Trace.Writable.run_write (ht : t.Writable) :
    ∃ text, t.write = some text ∧
      (TraceParser.new.run text).outline = (t.outline, true) := by
  obtain ⟨text, hwrite, hlines⟩ := Trace.write_eq fun group hgroup => (ht.group group hgroup).2
  refine ⟨text, hwrite, ?_⟩
  have hrun : TraceParser.new.run text =
      parseLexemes .trace (scan .directive 0 (lines t.directives)) := by
    rw [← hlines, scan_newline]
    rfl
  rw [hrun]
  unfold Trace.directives Trace.outline
  split_ifs with hempty
  · exact ParsesTo.tn parsesTo_testEnd (Or.inl rfl) (by simp) 0
  · exact parsesTo_groups (fun group hgroup => (ht.group group hgroup).1) hempty 0

/-- The call of the builder for a reduction, without the texts of errors. -/
def TraceBuilder.handleOutline (garbage : Int) (b : TraceBuilder) :
    Option Directive → Option TraceBuilder
  | some d => (b.handle garbage (d.event 0)).toOption
  | none => (b.onTestEnd 0).toOption

theorem updateFile_toOption {b : TraceBuilder} {f f' : FileInfo → Except ReadError FileInfo}
    (h : ∀ fi, (f fi).toOption = (f' fi).toOption) :
    (b.updateFile f).toOption = (b.updateFile f').toOption := by
  unfold TraceBuilder.updateFile
  split
  · rfl
  · split
    · rfl
    · rename_i fi _
      have hfi := h fi
      cases hf : f fi <;> cases hf' : f' fi <;> rw [hf, hf'] at hfi <;> cases hfi <;> rfl

theorem onTestEnd_toOption (b : TraceBuilder) (l l' : Nat) :
    (b.onTestEnd l).toOption = (b.onTestEnd l').toOption := by
  unfold TraceBuilder.onTestEnd
  split
  · rfl
  · split_ifs
    · rfl
    · split <;> rfl

theorem onSourceStart_toOption (b : TraceBuilder) (path : Str) (l l' : Nat) :
    (b.onSourceStart path l).toOption = (b.onSourceStart path l').toOption := by
  unfold TraceBuilder.onSourceStart
  split
  · rfl
  · split
    · rfl
    · simp only
      split_ifs <;> rfl

theorem handle_toOption (garbage : Int) (b : TraceBuilder) (d : Directive) (l l' : Nat) :
    (b.handle garbage (d.event l)).toOption = (b.handle garbage (d.event l')).toOption := by
  cases d with
  | sf path => exact onSourceStart_toOption b path l l'
  | fn line name =>
    apply updateFile_toOption
    intro fi
    unfold FileInfo.onFunction
    split <;> rfl
  | da line counter
  | daNegative line counter =>
    apply updateFile_toOption
    intro fi
    unfold FileInfo.onLineCounter
    split <;> rfl
  | brda line block branch counter
  | brdaNotCovered line block branch =>
    apply updateFile_toOption
    intro fi
    unfold FileInfo.onBranch
    split <;> rfl
  | _ => rfl

theorem run_toOption (garbage : Int) (b : TraceBuilder) (rs : List Reduction) :
    (b.run garbage (rs.map Reduction.event)).toOption =
      (rs.map Reduction.outline).foldlM (TraceBuilder.handleOutline garbage) b := by
  induction rs generalizing b with
  | nil => rfl
  | cons r rs ih =>
    have hstep : (b.handle garbage r.event).toOption =
        b.handleOutline garbage r.outline := by
      cases r with
      | directive d line => exact handle_toOption garbage b d line 0
      | test endLine => exact onTestEnd_toOption b endLine 0
    rw [List.map_cons, List.map_cons, TraceBuilder.run_cons, List.foldlM_cons, ← hstep]
    cases b.handle garbage r.event with
    | error e => rfl
    | ok b' => exact ih b'

theorem Trace.Writable.read_write_outline (ht : t.Writable) (garbage : Int) (t' : Trace) :
    (∃ text, t.write = some text ∧ Trace.empty.read garbage text = .ok t') ↔
      ∃ b, t.outline.foldlM (TraceBuilder.handleOutline garbage) (TraceBuilder.new .empty) =
        some b ∧ b.trace = t' := by
  obtain ⟨text, hwrite, hrun⟩ := ht.run_write
  simp only [ParseRun.outline, Prod.mk.injEq] at hrun
  obtain ⟨houtline, hresult⟩ := hrun
  have hok : (TraceParser.new.run text).result = .ok () := by
    cases hres : (TraceParser.new.run text).result with
    | error e =>
      rw [hres] at hresult
      cases hresult
    | ok u => rfl
  have hread : Trace.empty.read garbage text = .ok t' ↔
      ∃ b, (TraceBuilder.new .empty).run garbage (TraceParser.new.run text).events = .ok b ∧
        b.trace = t' := by
    unfold Trace.read
    rw [Trace.readWith_eq, finishRead_eq_ok_iff, hok]
    simp
  have hfold : ((TraceBuilder.new .empty).run garbage
      (TraceParser.new.run text).events).toOption =
      t.outline.foldlM (TraceBuilder.handleOutline garbage) (TraceBuilder.new .empty) := by
    have := run_toOption garbage (TraceBuilder.new .empty)
      ((TraceParser.new.run text).reductions.map Prod.fst)
    rw [List.map_map, List.map_map] at this
    rw [← houtline]
    exact this
  rw [← hfold]
  constructor
  · rintro ⟨text', hwrite', h⟩
    rw [hwrite] at hwrite'
    cases hwrite'
    obtain ⟨b, hb, htrace⟩ := hread.mp h
    exact ⟨b, by rw [hb]; rfl, htrace⟩
  · rintro ⟨b, hb, htrace⟩
    refine ⟨text, hwrite, hread.mpr ⟨b, ?_, htrace⟩⟩
    cases hb' : (TraceBuilder.new .empty).run garbage (TraceParser.new.run text).events with
    | error e =>
      rw [hb'] at hb
      cases hb
    | ok b1 =>
      rw [hb'] at hb
      cases hb
      rfl

def FileInfo.applyDirective (garbage : Int) (fi : FileInfo) : Directive → Option FileInfo
  | .fn l name => (fi.onFunction garbage name (toInt l) 0).toOption
  | .fnda c name => some (fi.onFunctionCounter name (toLong c))
  | .da l c => (fi.onLineCounter (toInt l) (toLong c) 0).toOption
  | .daNegative l _ => (fi.onLineCounter (toInt l) 0 0).toOption
  | .brda l block branch c =>
    (fi.onBranch ⟨toInt l, toInt block, toInt branch⟩ (toLong c) [] 0).toOption
  | .brdaNotCovered l block branch =>
    (fi.onBranch ⟨toInt l, toInt block, toInt branch⟩ (-1) [] 0).toOption
  | _ => some fi

/-- The builder after a change of the current file. -/
def TraceBuilder.withFile (b : TraceBuilder) (gi : FileGroupInfo) (fi : FileInfo) :
    TraceBuilder :=
  { b with currentGroupInfo := some ⟨gi.files.set b.currentFile fi⟩ }

section Building

variable {garbage : Int}

section CurrentFile

variable {b : TraceBuilder} {gi : FileGroupInfo} {fi : FileInfo}
variable (hgi : b.currentGroupInfo = some gi) (hfi : gi.files.find b.currentFile = some fi)

include hgi hfi

theorem updateFile_eq (f : FileInfo → Except ReadError FileInfo) :
    (b.updateFile f).toOption = (f fi).toOption.map (b.withFile gi) := by
  unfold TraceBuilder.updateFile
  rw [hgi]
  simp only [hfi]
  cases f fi <;> rfl

theorem withFile_self : b.withFile gi fi = b := by
  rw [TraceBuilder.withFile, OrderedMap.set_find_self hfi, ← hgi]

theorem handleOutline_section {d : Directive} (hd : (Reduction.directive d 0).inSection = true) :
    b.handleOutline garbage (some d) =
      (fi.applyDirective garbage d).map (b.withFile gi) := by
  have hbranch : ∀ id c msg, (fi.onBranch id c msg 0).toOption =
      (fi.onBranch id c [] 0).toOption := by
    intro id c msg
    unfold FileInfo.onBranch
    split <;> rfl
  cases d with
  | tn name => cases hd
  | sf path => cases hd
  | eor => cases hd
  | fn l name => exact updateFile_eq hgi hfi _
  | fnda c name =>
    exact updateFile_eq hgi hfi fun fi => .ok (fi.onFunctionCounter name (toLong c))
  | da l c => exact updateFile_eq hgi hfi _
  | daNegative l c => exact updateFile_eq hgi hfi _
  | brda l block branch c => exact (updateFile_eq hgi hfi _).trans (by rw [hbranch]; rfl)
  | brdaNotCovered l block branch =>
    exact (updateFile_eq hgi hfi _).trans (by rw [hbranch]; rfl)
  | _ => exact congrArg some (withFile_self hgi hfi).symm

end CurrentFile

theorem withFile_withFile (b : TraceBuilder) (gi : FileGroupInfo) (fi fi' : FileInfo) :
    (b.withFile gi fi).withFile ⟨gi.files.set b.currentFile fi⟩ fi' = b.withFile gi fi' := by
  simp only [TraceBuilder.withFile, OrderedMap.set_set]

variable (garbage) in
theorem foldlM_section {ds : List Directive}
    (hds : ∀ d ∈ ds, (Reduction.directive d 0).inSection = true)
    {b : TraceBuilder} {gi : FileGroupInfo} {fi : FileInfo}
    (hgi : b.currentGroupInfo = some gi) (hfi : gi.files.find b.currentFile = some fi) :
    (ds.map some).foldlM (TraceBuilder.handleOutline garbage) b =
      (ds.foldlM (FileInfo.applyDirective garbage) fi).map (b.withFile gi) := by
  induction ds generalizing b gi fi with
  | nil => exact congrArg some (withFile_self hgi hfi).symm
  | cons d ds ih =>
    rw [List.map_cons, List.foldlM_cons, List.foldlM_cons,
      handleOutline_section hgi hfi (hds d (by simp))]
    cases fi.applyDirective garbage d with
    | none => rfl
    | some fi1 =>
      have hnext := ih (fun d' hd' => hds d' (by simp [hd'])) (b := b.withFile gi fi1) rfl
        (OrderedMap.find_set_self _ _ _)
      refine hnext.trans ?_
      simp only [Option.bind_eq_bind, Option.bind_some]
      congr 1
      funext fi'
      exact withFile_withFile b gi fi1 fi'

theorem foldlM_insertResults {K V W : Type*} [LinearOrder K]
    {f : K → V → Option W} {mk : K × V → List Directive} {u : OrderedMap K W → FileInfo}
    {l : List (K × V)} (hl : l.Pairwise fun a b => a.1 < b.1)
    (hstep : ∀ e ∈ l, ∀ m, m.find e.1 = none →
      (mk e).foldlM (FileInfo.applyDirective garbage) (u m) =
        some (u (match f e.1 e.2 with | some w => m.set e.1 w | none => m)))
    {m : OrderedMap K W} (hm : ∀ e ∈ l, m.find e.1 = none) :
    (l.flatMap mk).foldlM (FileInfo.applyDirective garbage) (u m) =
      some (u (OrderedMap.insertResults f l m)) := by
  induction l generalizing m with
  | nil => rfl
  | cons e l ih =>
    obtain ⟨hhead, htail⟩ := List.pairwise_cons.mp hl
    have hfresh := hm e (by simp)
    have hnext : (match f e.1 e.2 with | some w => m.set e.1 w | none => m) =
        (match f e.1 e.2 with | some w => (m.insert e.1 w).1 | none => m) := by
      split
      · rw [OrderedMap.insert_of_find_none _ hfresh]
      · rfl
    rw [List.flatMap_cons, List.foldlM_append, hstep e (by simp) m hfresh]
    change (l.flatMap mk).foldlM _ _ = _
    rw [ih htail (fun e' he' => hstep e' (by simp [he']))]
    · rw [hnext]
      rfl
    · intro e' he'
      have hne : e'.1 ≠ e.1 := (hhead e' he').ne'
      split
      · rw [OrderedMap.find_set_of_ne _ _ hne, hm e' (by simp [he'])]
      · exact hm e' (by simp [he'])

variable {l : List (Str × FuncInfo)} {b : TraceBuilder} {m : OrderedMap Str FileInfo} {F : Str}
variable {names : List Str} {group : FileGroupID × FileGroupInfo}

theorem find_onFunctionCounters (hl : l.Pairwise fun a b => a.1 < b.1) (fi : FileInfo) (n : Str) :
    (l.foldl (fun fi e => fi.onFunctionCounter e.1 e.2.counter) fi).functions.find n =
      match OrderedMap.findIn n l with
      | some fn =>
        some ⟨(fi.functions.find n).elim (-1) FuncInfo.lineStart, fn.counter⟩
      | none => fi.functions.find n := by
  induction l generalizing fi with
  | nil => rfl
  | cons e l ih =>
    obtain ⟨hhead, htail⟩ := List.pairwise_cons.mp hl
    rw [List.foldl_cons, ih htail]
    have hline : fi.onFunctionCounter e.1 e.2.counter = { fi with
        functions := fi.functions.set e.1
          ⟨(fi.functions.find e.1).elim (-1) FuncInfo.lineStart, e.2.counter⟩ } := by
      unfold FileInfo.onFunctionCounter
      cases fi.functions.find e.1 <;> rfl
    rw [hline]
    by_cases hn : n = e.1
    · subst hn
      have hnone : OrderedMap.findIn e.1 l = none := by
        rw [Option.eq_none_iff_forall_ne_some]
        intro v hv
        rw [OrderedMap.findIn_eq_some_of_sorted e.1 v htail] at hv
        exact lt_irrefl _ (hhead (e.1, v) hv)
      simp [OrderedMap.findIn, hnone]
    · simp [OrderedMap.findIn, hn, OrderedMap.find_set_of_ne]

theorem onFunctionCounters_other (l : List (Str × FuncInfo)) (fi : FileInfo) :
    (l.foldl (fun fi e => fi.onFunctionCounter e.1 e.2.counter) fi).lines = fi.lines ∧
    (l.foldl (fun fi e => fi.onFunctionCounter e.1 e.2.counter) fi).branches =
      fi.branches := by
  induction l generalizing fi with
  | nil => exact ⟨rfl, rfl⟩
  | cons e l ih => exact ih (fi.onFunctionCounter e.1 e.2.counter)

theorem foldlM_fnda (hl : ∀ e ∈ l, 0 ≤ e.2.counter ∧ e.2.counter < 2 ^ 63) (fi : FileInfo) :
    (l.map fun func => Directive.fnda (decimal func.2.counter) func.1).foldlM
        (FileInfo.applyDirective garbage) fi =
      some (l.foldl (fun fi e => fi.onFunctionCounter e.1 e.2.counter) fi) := by
  induction l generalizing fi with
  | nil => rfl
  | cons e l ih =>
    obtain ⟨hnonneg, hlt⟩ := hl e (by simp)
    have hvalue := toLong_decimal hnonneg hlt
    rw [List.map_cons, List.foldlM_cons]
    change ((l.map _).foldlM _ (fi.onFunctionCounter e.1 (toLong (decimal e.2.counter)))) = _
    rw [hvalue]
    exact ih (fun e' he' => hl e' (by simp [he'])) _

theorem insertResults_some {K V : Type*} [LinearOrder K] (m : OrderedMap K V) :
    OrderedMap.insertResults (fun _ v => some v) m.entries .empty = m := by
  rw [OrderedMap.insertResults_entries]
  apply OrderedMap.ext_find
  intro k
  rw [OrderedMap.find_filterMapVal, Option.bind_fun_some]

section Parts

variable {fi : FileInfo} (h : fi.Complete)

include h

theorem foldlM_fn (l : OrderedMap Int Int) (b : OrderedMap BranchID Int) :
    (fi.functions.entries.flatMap fun func =>
      if func.2.lineStart ≠ -1 then [Directive.fn (decimal func.2.lineStart) func.1]
      else []).foldlM (FileInfo.applyDirective garbage) ⟨.empty, l, b⟩ =
    some ⟨fi.functions.filterMapVal fun _ fn =>
      if fn.lineStart ≠ -1 then some ⟨fn.lineStart, garbage⟩ else none, l, b⟩ := by
  rw [← OrderedMap.insertResults_entries]
  refine foldlM_insertResults (u := fun m => ⟨m, l, b⟩) fi.functions.sorted ?_ (by simp)
  rintro ⟨n, fn⟩ hfn m hm
  rw [← OrderedMap.find_eq_some_iff] at hfn
  by_cases hline : fn.lineStart = -1
  · simp [hline]
  · obtain ⟨hlower, hupper⟩ := h.functionLines n fn hfn
    have hvalue := toInt_decimal (by omega : 0 ≤ fn.lineStart) hupper
    simp [hline, FileInfo.applyDirective, FileInfo.onFunction, hvalue,
      OrderedMap.insertNew_of_find_none _ hm, Except.toOption]

theorem foldlM_brda (f : OrderedMap Str FuncInfo) (l : OrderedMap Int Int) :
    (fi.branches.entries.map fun branch =>
      if branch.2 ≠ -1 then
        Directive.brda (decimal branch.1.line) (decimal branch.1.blockNumber)
          (decimal branch.1.branchNumber) (decimal branch.2)
      else
        .brdaNotCovered (decimal branch.1.line) (decimal branch.1.blockNumber)
          (decimal branch.1.branchNumber)).foldlM
      (FileInfo.applyDirective garbage) ⟨f, l, .empty⟩ =
    some ⟨f, l, fi.branches⟩ := by
  rw [List.map_eq_flatMap]
  refine (foldlM_insertResults (f := fun _ c => some c) (u := fun m => ⟨f, l, m⟩)
    fi.branches.sorted ?_ (by simp)).trans (by rw [insertResults_some])
  rintro ⟨b, c⟩ hb m hm
  rw [← OrderedMap.find_eq_some_iff] at hb
  obtain ⟨hline, hblock, hbranch, hlower, hupper⟩ := h.branches b c hb
  have hid : BranchID.mk (toInt (decimal b.line)) (toInt (decimal b.blockNumber))
      (toInt (decimal b.branchNumber)) = b := by
    rw [toInt_decimal hline.1 hline.2, toInt_decimal hblock.1 hblock.2,
      toInt_decimal hbranch.1 hbranch.2]
  by_cases hdash : c = -1
  · simp [hdash, FileInfo.applyDirective, FileInfo.onBranch, hid,
      OrderedMap.insertNew_of_find_none _ hm, Except.toOption]
  · have hvalue := toLong_decimal (by omega : 0 ≤ c) hupper
    simp [hdash, FileInfo.applyDirective, FileInfo.onBranch, hid, hvalue,
      OrderedMap.insertNew_of_find_none _ hm, Except.toOption]

theorem foldlM_da (f : OrderedMap Str FuncInfo) (b : OrderedMap BranchID Int) :
    (fi.lines.entries.map fun line => Directive.da (decimal line.1) (decimal line.2)).foldlM
      (FileInfo.applyDirective garbage) ⟨f, .empty, b⟩ =
    some ⟨f, fi.lines, b⟩ := by
  rw [List.map_eq_flatMap]
  refine (foldlM_insertResults (f := fun _ c => some c) (u := fun m => ⟨f, m, b⟩)
    fi.lines.sorted ?_ (by simp)).trans (by rw [insertResults_some])
  rintro ⟨l, c⟩ hl m hm
  rw [← OrderedMap.find_eq_some_iff] at hl
  obtain ⟨hl, hlt, hc, hclt⟩ := h.lines l c hl
  simp [FileInfo.applyDirective, FileInfo.onLineCounter, toInt_decimal hl hlt,
    toLong_decimal hc hclt, OrderedMap.insertNew_of_find_none _ hm, Except.toOption]

theorem foldlM_fileDirectives :
    (fileDirectives fi).foldlM (FileInfo.applyDirective garbage) .empty = some fi := by
  have hcounters : ∀ e ∈ fi.functions.entries, 0 ≤ e.2.counter ∧ e.2.counter < 2 ^ 63 := by
    rintro ⟨n, fn⟩ hfn
    rw [← OrderedMap.find_eq_some_iff] at hfn
    exact h.functions n fn hfn id
  have hfunctions : (fi.functions.entries.map fun func =>
      Directive.fnda (decimal func.2.counter) func.1).foldlM (FileInfo.applyDirective garbage)
        ⟨fi.functions.filterMapVal fun _ fn =>
          if fn.lineStart ≠ -1 then some ⟨fn.lineStart, garbage⟩ else none, .empty, .empty⟩ =
      some ⟨fi.functions, .empty, .empty⟩ := by
    rw [foldlM_fnda hcounters]
    congr 1
    apply FileInfo.ext_find
    · intro n
      rw [find_onFunctionCounters fi.functions.sorted, OrderedMap.find_filterMapVal]
      change (match fi.functions.find n with | some fn => _ | none => _) =
        fi.functions.find n
      cases hfn : fi.functions.find n with
      | none => rfl
      | some fn =>
        by_cases hline : fn.lineStart = -1
        · have heta : fn = ⟨-1, fn.counter⟩ := by rw [← hline]
          simp only [Option.bind_some, hline, ne_eq, not_true, if_false, Option.elim_none]
          rw [← heta]
        · simp [hline]
    · intro l
      rw [(onFunctionCounters_other _ _).1]
    · intro b
      rw [(onFunctionCounters_other _ _).2]
  unfold fileDirectives FileInfo.empty
  simp only [List.foldlM_append, List.foldlM_cons, List.foldlM_nil, Option.bind_eq_bind,
    foldlM_fn h, Option.bind_some, hfunctions, FileInfo.applyDirective, Option.pure_def,
    foldlM_brda h, foldlM_da h]

end Parts

def deriveName (filename path : Str) : Str :=
  if filename = [] then path else if isSource path then path else filename

/-- The identificator of a group that is derived when the group is read back. -/
def derivedID (group : FileGroupID × FileGroupInfo) : FileGroupID :=
  ⟨group.1.testName, group.2.files.keys.foldl deriveName []⟩

variable (garbage) in
theorem foldlM_source {file : Str × FileInfo} (hgi : b.currentGroupInfo = some ⟨m⟩)
    (hnew : m.find file.1 = none)
    (hsource : isSource file.1 = true → isSource b.currentGroupID.filename = false)
    (hfile : WritableFile file) :
    ((sourceDirectives file).map some).foldlM (TraceBuilder.handleOutline garbage) b =
      some ⟨b.trace, some ⟨m.set file.1 file.2⟩,
        ⟨b.currentGroupID.testName, deriveName b.currentGroupID.filename file.1⟩, file.1⟩ := by
  have hstart : b.handleOutline garbage (some (.sf file.1)) =
      some ⟨b.trace, some ⟨m.set file.1 .empty⟩,
        ⟨b.currentGroupID.testName, deriveName b.currentGroupID.filename file.1⟩,
        file.1⟩ := by
    change (b.onSourceStart file.1 0).toOption = _
    unfold TraceBuilder.onSourceStart
    rw [hgi]
    simp only [OrderedMap.insertNew_of_find_none _ hnew, deriveName]
    split_ifs with hempty hpath hboth
    · rfl
    · rw [hsource hpath] at hboth
      cases hboth
    · rfl
    · rfl
  have hsection := foldlM_section garbage
    (fun d hd => (hfile.2.directives d hd).2)
    (b := ⟨b.trace, some ⟨m.set file.1 .empty⟩,
        ⟨b.currentGroupID.testName, deriveName b.currentGroupID.filename file.1⟩, file.1⟩)
    rfl (OrderedMap.find_set_self _ _ _)
  rw [foldlM_fileDirectives hfile.2] at hsection
  rw [sourceDirectives, List.map_cons, List.foldlM_cons, hstart, List.map_append,
    Option.bind_eq_bind, Option.bind_some, List.foldlM_append, hsection]
  change some _ = some _
  simp only [TraceBuilder.withFile, OrderedMap.set_set]

variable (garbage) in
theorem foldlM_sources {files : List (Str × FileInfo)}
    (hsorted : files.Pairwise fun a b => a.1 < b.1)
    (hfiles : ∀ file ∈ files, WritableFile file) (hgi : b.currentGroupInfo = some ⟨m⟩)
    (hnew : ∀ file ∈ files, m.find file.1 = none)
    (hsource : ∀ f, f ∈ b.currentGroupID.filename :: files.map Prod.fst →
      isSource f = true → f = F) (hname : b.currentGroupID.filename ∉ files.map Prod.fst) :
    ∃ file, ((files.flatMap sourceDirectives).map some).foldlM
        (TraceBuilder.handleOutline garbage) b =
      some ⟨b.trace, some ⟨.insertResults (fun _ fi => some fi) files m⟩,
        ⟨b.currentGroupID.testName,
          (files.map Prod.fst).foldl deriveName b.currentGroupID.filename⟩, file⟩ := by
  induction files generalizing b m with
  | nil =>
    refine ⟨b.currentFile, ?_⟩
    change some b = some _
    obtain ⟨trace, gi, id, file⟩ := b
    cases hgi
    rfl
  | cons file files ih =>
    obtain ⟨hhead, htail⟩ := List.pairwise_cons.mp hsorted
    simp only [List.map_cons, List.mem_cons, not_or] at hsource hname
    have hfresh := hnew file (by simp)
    have hone : isSource file.1 = true → isSource b.currentGroupID.filename = false := by
      intro hfile
      by_contra hcur
      rw [Bool.not_eq_false] at hcur
      exact hname.1 ((hsource _ (by simp) hcur).trans (hsource _ (by simp) hfile).symm)
    have hstep := foldlM_source garbage hgi hfresh hone (hfiles file (by simp))
    have hcases : deriveName b.currentGroupID.filename file.1 = file.1 ∨
        deriveName b.currentGroupID.filename file.1 = b.currentGroupID.filename := by
      unfold deriveName
      split_ifs <;> simp
    have hnotin : file.1 ∉ files.map Prod.fst := by
      intro hmem
      obtain ⟨file', hfile', heq⟩ := List.mem_map.mp hmem
      exact absurd heq (hhead file' hfile').ne'
    obtain ⟨last, hrest⟩ := ih htail (fun file' hfile' => hfiles file' (by simp [hfile']))
      (b := ⟨b.trace, some ⟨m.set file.1 file.2⟩,
        ⟨b.currentGroupID.testName, deriveName b.currentGroupID.filename file.1⟩, file.1⟩)
      rfl
      (by
        intro file' hfile'
        rw [OrderedMap.find_set_of_ne _ _ (hhead file' hfile').ne', hnew file' (by simp [hfile'])])
      (by
        intro f hf
        rcases List.mem_cons.mp hf with rfl | hf
        · rcases hcases with heq | heq <;> simp only [heq] <;> exact hsource _ (by simp)
        · exact hsource f (by simp [hf]))
      (by
        rcases hcases with heq | heq <;> simp only [heq]
        · exact hnotin
        · exact hname.2)
    refine ⟨last, ?_⟩
    rw [List.flatMap_cons, List.map_append, List.foldlM_append, hstep, Option.bind_eq_bind,
      Option.bind_some, hrest]
    simp [OrderedMap.insertResults, OrderedMap.insert_of_find_none _ hfresh]

theorem foldl_deriveName {filename : Str} (hF : ∀ f ∈ names, isSource f = true → f = F)
    (hne : ∀ f ∈ names, f ≠ []) (hfilename : filename ≠ []) :
    names.foldl deriveName filename = if names.any isSource then F else filename := by
  induction names generalizing filename with
  | nil => rfl
  | cons f names ih =>
    have hrest : ∀ filename, filename ≠ [] → names.foldl deriveName filename =
        if names.any isSource then F else filename :=
      fun filename => ih (fun f' hf' => hF f' (by simp [hf'])) fun f' hf' => hne f' (by simp [hf'])
    rw [List.foldl_cons, List.any_cons]
    cases hf : isSource f with
    | true =>
      have hder : deriveName filename f = F := by
        rw [deriveName, if_neg hfilename, if_pos hf, hF f (by simp) hf]
      have hFne : F ≠ [] := hF f (by simp) hf ▸ hne f (by simp)
      rw [hder, hrest F hFne]
      simp
    | false =>
      have hder : deriveName filename f = filename := by
        simp [deriveName, hf, hfilename]
      rw [hder, hrest filename hfilename]
      simp

theorem derivedID_eq {f : Str} (hkeys : group.2.files.keys = f :: names)
    (hsource : ∀ f ∈ group.2.files.keys, isSource f = true → f = group.1.filename)
    (hne : ∀ f ∈ group.2.files.keys, f ≠ []) :
    derivedID group =
      ⟨group.1.testName, if group.2.files.keys.any isSource then group.1.filename else f⟩ := by
  rw [hkeys] at hsource hne
  have hfirst : deriveName [] f = f := by simp [deriveName]
  rw [derivedID, hkeys, List.foldl_cons, hfirst,
    foldl_deriveName (fun f' hf' => hsource f' (by simp [hf']))
      (fun f' hf' => hne f' (by simp [hf'])) (hne f (by simp)), List.any_cons]
  cases hf : isSource f with
  | true => simp [hsource f (by simp) hf]
  | false => simp

theorem foldlM_group (hgroup : WritableGroup group)
    (hsource : ∀ f ∈ group.2.files.keys, isSource f = true → f = group.1.filename)
    (hname : (derivedID group).filename ≠ []) (b : TraceBuilder) :
    ((groupOutline group).foldlM (TraceBuilder.handleOutline garbage) b).map
        TraceBuilder.trace =
      (b.trace.fileGroups.insertNew (derivedID group) group.2).map Trace.mk := by
  obtain ⟨last, hfiles⟩ := foldlM_sources garbage (F := group.1.filename)
    group.2.files.sorted hgroup.2 (b := b.onTestStart group.1.testName) rfl (by simp)
    (by
      intro f hf hf'
      rcases List.mem_cons.mp hf with rfl | hf
      · cases hf'
      · exact hsource f hf hf')
    (by
      intro hmem
      obtain ⟨file, hfile, heq⟩ := List.mem_map.mp hmem
      exact (hgroup.2 file hfile).1.ne_nil heq)
  have hstart : b.handleOutline garbage (some (.tn group.1.testName)) =
      some (b.onTestStart group.1.testName) := rfl
  rw [insertResults_some] at hfiles
  rw [groupOutline, groupDirectives, List.map_cons, List.cons_append, List.foldlM_cons,
    hstart, Option.bind_eq_bind, Option.bind_some, List.foldlM_append, hfiles,
    Option.bind_eq_bind, Option.bind_some, List.foldlM_cons]
  change ((TraceBuilder.onTestEnd ⟨b.trace, some group.2, derivedID group, last⟩ 0).toOption
    >>= fun b' => pure b').map TraceBuilder.trace = _
  unfold TraceBuilder.onTestEnd
  simp only [if_neg hname]
  cases b.trace.fileGroups.insertNew (derivedID group) group.2 <;> rfl

variable (garbage) in
theorem foldlM_groups {groups : List (FileGroupID × FileGroupInfo)}
    (hgroups : ∀ group ∈ groups, ∀ b : TraceBuilder,
      ((groupOutline group).foldlM (TraceBuilder.handleOutline garbage) b).map
          TraceBuilder.trace =
        (b.trace.fileGroups.insertNew (derivedID group) group.2).map Trace.mk)
    (b : TraceBuilder) :
    ((groups.flatMap groupOutline).foldlM (TraceBuilder.handleOutline garbage) b).map
        TraceBuilder.trace =
      (groups.foldlM (fun m group => OrderedMap.insertNew m (derivedID group) group.2)
        b.trace.fileGroups).map Trace.mk := by
  induction groups generalizing b with
  | nil => rfl
  | cons group groups ih =>
    have hgroup := hgroups group (by simp) b
    have hrest := ih fun g hg => hgroups g (by simp [hg])
    rw [List.flatMap_cons, List.foldlM_append, List.foldlM_cons]
    cases hfold : (groupOutline group).foldlM (TraceBuilder.handleOutline garbage) b with
    | none =>
      rw [hfold] at hgroup
      rw [(Option.map_eq_none_iff.mp hgroup.symm)]
      rfl
    | some b' =>
      rw [hfold] at hgroup
      obtain ⟨m, hm, htrace⟩ := Option.map_eq_some_iff.mp hgroup.symm
      rw [hm]
      refine (hrest b').trans ?_
      rw [← htrace]
      rfl

end Building

/-- The name of the group is the one of a source file, or the first of its files. -/
def NameSurvives (group : FileGroupID × FileGroupInfo) : Prop :=
  isSource group.1.filename = true ∨
    ∀ f, (group.2.files.find f).isSome → group.1.filename ≤ f

theorem Trace.Writable.derivedID_iff (ht : t.Writable) {group : FileGroupID × FileGroupInfo}
    (hgroup : group ∈ t.fileGroups.entries) :
    (∀ f ∈ group.2.files.keys, isSource f = true → f = group.1.filename) ∧
    (derivedID group).filename ≠ [] ∧ derivedID group ≤ group.1 ∧
    (derivedID group = group.1 ↔ NameSurvives group) := by
  obtain ⟨hwritable, hn⟩ := ht.group group hgroup
  obtain ⟨g, gi⟩ := group
  have hg := (OrderedMap.find_eq_some_iff _ _ _).mpr hgroup
  have hpath : ∀ f ∈ gi.files.keys, IsPath f := by
    intro f hf
    obtain ⟨file, hfile, rfl⟩ := List.mem_map.mp hf
    exact (hwritable.2 file hfile).1
  have hsource : ∀ f ∈ gi.files.keys, isSource f = true → f = g.filename := by
    intro f hf hs
    obtain ⟨fi, hfi⟩ := (gi.files.mem_keys_iff f).mp hf
    exact ht.groups.source_is_own g gi f hg (by rw [hfi]; rfl) ((hpath f hf).isSource_iff.mp hs)
  have hown : g.filename ∈ gi.files.keys := by
    rw [OrderedMap.mem_keys_iff]
    exact Option.isSome_iff_exists.mp (ht.groups.own_file g gi hg)
  obtain ⟨f, names, hkeys⟩ := List.exists_cons_of_ne_nil
    (show gi.files.keys ≠ [] from List.ne_nil_of_mem hown)
  -- the first name is the least one
  have hleast : ∀ f' ∈ gi.files.keys, f ≤ f' := by
    intro f' hf'
    have hsorted := gi.files.keys_sorted
    rw [hkeys] at hf' hsorted
    rcases List.mem_cons.mp hf' with rfl | hf'
    · exact le_refl _
    · exact ((List.pairwise_cons.mp hsorted).1 f' hf').le
  have hderived : derivedID (g, gi) =
      ⟨g.testName, if gi.files.keys.any isSource then g.filename else f⟩ :=
    derivedID_eq hkeys hsource fun f' hf' => (hpath f' hf').ne_nil
  refine ⟨hsource, ?_, ?_, ?_⟩
  · rw [hderived]
    split_ifs
    · exact (hpath _ hown).ne_nil
    · exact (hpath f (by simp [hkeys])).ne_nil
  · rw [hderived]
    split_ifs
    · exact le_refl _
    · rcases (hleast _ hown).lt_or_eq with hlt | heq
      · exact ((FileGroupID.lt_iff _ _).mpr (Or.inl hlt)).le
      · rw [heq]
  · rw [hderived]
    by_cases hany : gi.files.keys.any isSource = true
    · obtain ⟨f', hf', hs⟩ := List.any_eq_true.mp hany
      have hgs : isSource g.filename = true := hsource f' hf' hs ▸ hs
      simp [hany, NameSurvives, hgs]
    · have hgs : ¬isSource g.filename = true :=
        fun hs => hany (List.any_eq_true.mpr ⟨_, hown, hs⟩)
      rw [if_neg hany]
      constructor
      · intro heq
        refine Or.inr fun f' hf' => ?_
        rw [← heq]
        exact hleast f' ((gi.files.mem_keys_iff f').mpr (Option.isSome_iff_exists.mp hf'))
      · rintro (hs | hmin)
        · exact absurd hs hgs
        · have hf : (gi.files.find f).isSome :=
            Option.isSome_iff_exists.mpr ((gi.files.mem_keys_iff f).mp (by simp [hkeys]))
          rw [le_antisymm (hleast _ hown) (hmin f hf)]

theorem Trace.Writable.read_write (ht : t.Writable) (garbage : Int) (t' : Trace) :
    (∃ text, t.write = some text ∧ Trace.empty.read garbage text = .ok t') ↔
      t.fileGroups.entries.foldlM
        (fun m group => OrderedMap.insertNew m (derivedID group) group.2) .empty =
        some t'.fileGroups := by
  rw [ht.read_write_outline]
  unfold Trace.outline
  split_ifs with hempty
  · rw [hempty]
    constructor
    · rintro ⟨b, hb, rfl⟩
      cases hb
      rfl
    · intro h
      refine ⟨⟨.empty, none, ⟨[], []⟩, []⟩, rfl, ?_⟩
      cases t'
      cases h
      rfl
  · have hfold := foldlM_groups garbage (fun group hgroup b =>
      foldlM_group (ht.group group hgroup).1 (ht.derivedID_iff hgroup).1
        (ht.derivedID_iff hgroup).2.1 b) (TraceBuilder.new .empty)
    have hiff : (∃ b, (t.fileGroups.entries.flatMap groupOutline).foldlM
        (TraceBuilder.handleOutline garbage) (TraceBuilder.new .empty) = some b ∧
          b.trace = t') ↔
        ((t.fileGroups.entries.flatMap groupOutline).foldlM
          (TraceBuilder.handleOutline garbage) (TraceBuilder.new .empty)).map
            TraceBuilder.trace = some t' := by
      rw [Option.map_eq_some_iff]
    rw [hiff, hfold, Option.map_eq_some_iff]
    constructor
    · rintro ⟨m, hm, rfl⟩
      exact hm
    · intro h
      exact ⟨t'.fileGroups, h, rfl⟩

/--
For a trace that was read from a readable text: what is written can be read back
as the same trace exactly when each group is named by a source file, or by the
first of its files.
-/
theorem read_write_iff
    {garbage : Int} {is : Str} {t : Trace}
    (his : Readable is) (hread : Trace.empty.read garbage is = .ok t) (garbage' : Int) :
    (∃ text, t.write = some text ∧ Trace.empty.read garbage' text = .ok t) ↔
      ∀ g gi, t.fileGroups.find g = some gi → NameSurvives (g, gi) := by
  have ht := Trace.read_writable his hread
  rw [ht.read_write, OrderedMap.foldlM_insertNew_eq_self_iff
    fun group hgroup => (ht.derivedID_iff hgroup).2.2.1]
  constructor
  · intro h g gi hg
    rw [OrderedMap.find_eq_some_iff] at hg
    exact (ht.derivedID_iff hg).2.2.2.mp (h (g, gi) hg)
  · rintro h ⟨g, gi⟩ hg
    exact (ht.derivedID_iff hg).2.2.2.mpr (h g gi ((OrderedMap.find_eq_some_iff _ _ _).mpr hg))

/-- A source file with a function, a branch and a line. -/
def sourceText : Str :=
  ("TN:t\nSF:/a.c\nFN:3,f\nFNDA:2,f\nFNF:1\nFNH:1\nBRDA:4,0,1,-\nBRF:1\nBRH:0\n" ++
    "DA:3,2\nLF:1\nLH:1\nend_of_record\n").toList

def sourceTrace : Trace :=
  ⟨OrderedMap.empty.set ⟨['t'], ['/', 'a', '.', 'c']⟩
    ⟨OrderedMap.empty.set ['/', 'a', '.', 'c']
      ⟨OrderedMap.empty.set ['f'] ⟨3, 2⟩, OrderedMap.empty.set 3 2,
        OrderedMap.empty.set ⟨4, 0, 1⟩ (-1)⟩⟩⟩

/-- A group that is named by its source file comes back. -/
theorem read_write_sourceText :
    Readable sourceText ∧ Trace.empty.read 0 sourceText = .ok sourceTrace ∧
      ((∃ text, sourceTrace.write = some text ∧
          Trace.empty.read 0 text = .ok sourceTrace) ↔
        ∀ g gi, sourceTrace.fileGroups.find g = some gi → NameSurvives (g, gi)) := by
  have his : Readable sourceText := ⟨by decide +kernel, by decide +kernel⟩
  have hread : Trace.empty.read 0 sourceText = .ok sourceTrace := by decide +kernel
  exact ⟨his, hread, read_write_iff his hread 0⟩

/-- A group of two headers that is named by the second of them. -/
def headersText : Str :=
  "TN:\nSF:/b.h\nend_of_record\nSF:/a.h\nend_of_record\n".toList

def headersTrace : Trace :=
  ⟨OrderedMap.empty.set ⟨[], ['/', 'b', '.', 'h']⟩
    ⟨(OrderedMap.empty.set ['/', 'a', '.', 'h'] .empty).set ['/', 'b', '.', 'h'] .empty⟩⟩

/-- The group `/b.h` comes back as the group `/a.h`. -/
theorem read_write_headersText :
    ¬∀ (garbage : Int) (is : Str) (t : Trace), Readable is →
      Trace.empty.read garbage is = .ok t →
      ∃ text, t.write = some text ∧ Trace.empty.read garbage text = .ok t := by
  intro h
  have his : Readable headersText := ⟨by decide +kernel, by decide +kernel⟩
  have hread : Trace.empty.read 0 headersText = .ok headersTrace := by decide +kernel
  obtain ⟨text, hwrite, hback⟩ := h 0 headersText headersTrace his hread
  have hwrong : headersTrace.write.map (Trace.empty.read 0) = some (.ok headersTrace) := by
    rw [hwrite, Option.map_some, hback]
  revert hwrong
  decide +kernel

end Coverage
end KedrAux
