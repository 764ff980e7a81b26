import KedrAux.Lib.Substring
import KedrAux.Lib.Trim
import KedrAux.MistEngine.Parser

/-!
# Tokenization of templates

The first stage of `mist_template_from_string`: the text of a template is cut at its markers.
A pointer into the text is what is before it and what is left from there on; `strstr` is `find`,
which gives what is before the occurrence and what is after it.

Allocations succeed.
-/

namespace KedrAux
namespace MistEngine
namespace Parser

open Substring (NoneBefore find find_eq_none_iff find_eq_some_iff)
open Trim (Trimmed trimmed_trim trim_eq_nil_iff)

def errNoBeginMarker : String :=
  "no matching begin marker found for the end marker (line %u of the template)"

def errNoEndMarker : String :=
  "no matching end marker found for the begin marker (line %u of the template)"

def errTooManyBeginMarkers : String :=
  "too many begin markers found for the end marker (line %u of the template)"

def refIf : Str := [105, 102]

def refElse : Str := [101, 108, 115, 101]

def refEndif : Str := [101, 110, 100, 105, 102]

/-- A marker must not be empty. -/
abbrev Marker := { marker : Str // marker ≠ [] }

/-- `mist_line_num_for_ptr`, from what is before the pointer. -/
def lineNumForPtr (done : Str) : Nat :=
  1 + done.count 10

def tokenCreate (type : TokenType) (done text : Str) : Token :=
  ⟨type, text, lineNumForPtr done⟩

/-- The token for a trimmed text that is not empty; `none` is `MIST_BAD_NAME`. -/
def tokenFromTrimmed (done text : Str) : Option Token :=
  let word := text.takeWhile fun c => !isSpace c
  let pos := text.dropWhile fun c => !isSpace c
  if word = refIf then
    let cond := pos.dropWhile isSpace
    if cond = [] then none
    else some (tokenCreate .mttIf (done ++ word ++ pos.takeWhile isSpace) cond)
  else if word = refElse then
    if pos ≠ [] then none else some (tokenCreate .mttElse done text)
  else if word = refEndif then
    if pos ≠ [] then none else some (tokenCreate .mttEndif done text)
  else some (tokenCreate .mttPh done text)

/-- `mist_token_from_ph_string`; `none` is `MIST_BAD_NAME`. -/
def tokenFromPhString (done ph : Str) : Option Token :=
  let beg := ph.dropWhile isSpace
  if beg = [] then none
  else tokenFromTrimmed (done ++ ph.takeWhile isSpace) (beg.rdropWhile isSpace)

theorem length_of_find {str what before after : Str}
    (h : find what str = some (before, after)) :
    str.length = before.length + what.length + after.length := by
  rw [Substring.find_append h, List.length_append, List.length_append]

section Tokenizer

variable (beginMarker endMarker : Marker)

/-- The loop of `mist_template_tokenize_string`; `done` is what is before `str`. -/
def tokenizeFrom (done str : Str) (tokens : List Token) : Except ErrorDescr (List Token) :=
  match _hbeg : find beginMarker str with
  | none =>
    match find endMarker str with
    | some (before, _) => .error ⟨errNoBeginMarker, none, lineNumForPtr (done ++ before)⟩
    | none => .ok (tokens ++ [tokenCreate .mttSch done str])
  | some (chunk, rest) =>
    match _hend : find endMarker rest with
    | none => .error ⟨errNoEndMarker, none, lineNumForPtr (done ++ chunk)⟩
    | some (ph, next) =>
      if (find beginMarker ph).isSome then
        .error ⟨errTooManyBeginMarkers, none,
          lineNumForPtr (done ++ chunk ++ beginMarker ++ ph)⟩
      else
        match find endMarker chunk with
        | some (before, _) =>
          .error ⟨errNoBeginMarker, none, lineNumForPtr (done ++ before)⟩
        | none =>
          match tokenFromPhString (done ++ chunk ++ beginMarker) ph with
          | none =>
            .error ⟨errInvalidPHName, some ph,
              lineNumForPtr (done ++ chunk ++ beginMarker)⟩
          | some tokPh =>
            tokenizeFrom (done ++ chunk ++ beginMarker ++ ph ++ endMarker) next
              (tokens ++ [tokenCreate .mttSch done chunk, tokPh])
termination_by str.length
decreasing_by
  have hchunk := length_of_find _hbeg
  have hph := length_of_find _hend
  have hmarker := List.length_pos_iff.mpr beginMarker.property
  omega

def templateTokenizeString (src : Str) : Except ErrorDescr (List Token) :=
  tokenizeFrom beginMarker endMarker [] src []

end Tokenizer

/-- The first word of a text that does not begin with a space. -/
def firstWord (text : Str) : Str :=
  text.takeWhile fun c => !isSpace c

/-- Content that is not blank, not a bare "if", and not "else" or "endif" with more text. -/
structure GoodContent (ph : Str) : Prop where
  not_blank : stringTrim ph ≠ []
  not_bare_if : stringTrim ph ≠ refIf
  else_alone : firstWord (stringTrim ph) = refElse → stringTrim ph = refElse
  endif_alone : firstWord (stringTrim ph) = refEndif → stringTrim ph = refEndif

/-- The type of a trimmed content, and the text of its token; for an "if" this is the
condition. -/
def classify (ph : Str) : TokenType × Str :=
  let text := stringTrim ph
  if firstWord text = refIf then (.mttIf, (text.drop refIf.length).dropWhile isSpace)
  else if text = refElse then (.mttElse, text)
  else if text = refEndif then (.mttEndif, text)
  else (.mttPh, text)

/-- A text is cut at the leftmost markers into chunks with contents, and the last chunk. -/
inductive Splits (beginMarker endMarker : Str) : Str → List (Str × Str) → Str → Prop where
  | last {chunk : Str} : ¬ beginMarker <:+: chunk → ¬ endMarker <:+: chunk →
      Splits beginMarker endMarker chunk [] chunk
  | piece {chunk ph next last : Str} {pieces : List (Str × Str)} :
      NoneBefore beginMarker (chunk ++ beginMarker ++ (ph ++ endMarker ++ next)) chunk.length →
      NoneBefore endMarker (ph ++ endMarker ++ next) ph.length →
      ¬ beginMarker <:+: ph → ¬ endMarker <:+: chunk → GoodContent ph →
      Splits beginMarker endMarker next pieces last →
      Splits beginMarker endMarker (chunk ++ beginMarker ++ (ph ++ endMarker ++ next))
        ((chunk, ph) :: pieces) last

/-- The types and the texts of the tokens for a text that is cut. -/
def splitTokens (pieces : List (Str × Str)) (last : Str) : List (TokenType × Str) :=
  (pieces.flatMap fun piece => [(.mttSch, piece.1), classify piece.2]) ++ [(.mttSch, last)]

def Token.typeAndText (t : Token) : TokenType × Str :=
  (t.type, t.text)

theorem trimmed_stringTrim (s : Str) : Trimmed isSpace (stringTrim s) :=
  trimmed_trim s

theorem stringTrim_eq_nil_iff {s : Str} : stringTrim s = [] ↔ s.dropWhile isSpace = [] := by
  rw [List.dropWhile_eq_nil_iff]
  exact trim_eq_nil_iff

theorem eq_nil_of_blank_end {word pos : Str} (htrim : Trimmed isSpace (word ++ pos))
    (hpos : pos.dropWhile isSpace = []) : pos = [] := by
  by_contra hne
  have hlast := htrim.last (pos.getLast hne) (by
    rw [List.getLast?_append_of_ne_nil _ hne, List.getLast?_eq_some_getLast hne])
  rw [List.dropWhile_eq_nil_iff.mp hpos _ (List.getLast_mem hne)] at hlast
  cases hlast

theorem firstWord_append (text : Str) :
    firstWord text ++ text.dropWhile (fun c => !isSpace c) = text :=
  List.takeWhile_append_dropWhile

variable {text done ph : Str} {tok : Token}

theorem blank_after_firstWord_iff (htrim : Trimmed isSpace text) :
    (text.dropWhile fun c => !isSpace c).dropWhile isSpace = [] ↔ text = firstWord text := by
  have happend := firstWord_append text
  constructor
  · intro h
    have hnil := eq_nil_of_blank_end (happend.symm ▸ htrim) h
    rw [hnil, List.append_nil] at happend
    exact happend.symm
  · intro h
    have hnil : (text.dropWhile fun c => !isSpace c) = [] := by
      have hlength := congrArg List.length happend
      rw [List.length_append, ← h] at hlength
      exact List.eq_nil_of_length_eq_zero (by omega)
    rw [hnil]
    rfl

theorem after_firstWord_eq_nil_iff (text : Str) :
    (text.dropWhile fun c => !isSpace c) = [] ↔ text = firstWord text := by
  have hlength := congrArg List.length (firstWord_append text)
  rw [List.length_append] at hlength
  constructor
  · intro h
    have happend := firstWord_append text
    rw [h, List.append_nil] at happend
    exact happend.symm
  · intro h
    rw [← h] at hlength
    exact List.eq_nil_of_length_eq_zero (by omega)

theorem tokenFromTrimmed_if (done : Str) (h : firstWord text = refIf) :
    tokenFromTrimmed done text =
      if (text.dropWhile fun c => !isSpace c).dropWhile isSpace = [] then none
      else some (tokenCreate .mttIf
        (done ++ firstWord text ++ (text.dropWhile fun c => !isSpace c).takeWhile isSpace)
        ((text.dropWhile fun c => !isSpace c).dropWhile isSpace)) :=
  if_pos h

theorem tokenFromTrimmed_else (done : Str) (h : firstWord text = refElse) :
    tokenFromTrimmed done text =
      if (text.dropWhile fun c => !isSpace c) ≠ [] then none
      else some (tokenCreate .mttElse done text) := by
  have hif : firstWord text ≠ refIf := h ▸ by decide
  exact (if_neg hif).trans (if_pos h)

theorem tokenFromTrimmed_endif (done : Str) (h : firstWord text = refEndif) :
    tokenFromTrimmed done text =
      if (text.dropWhile fun c => !isSpace c) ≠ [] then none
      else some (tokenCreate .mttEndif done text) := by
  have hif : firstWord text ≠ refIf := h ▸ by decide
  have helse : firstWord text ≠ refElse := h ▸ by decide
  exact (if_neg hif).trans ((if_neg helse).trans (if_pos h))

theorem tokenFromTrimmed_other (done : Str) (hif : firstWord text ≠ refIf)
    (helse : firstWord text ≠ refElse) (hendif : firstWord text ≠ refEndif) :
    tokenFromTrimmed done text = some (tokenCreate .mttPh done text) :=
  (if_neg hif).trans ((if_neg helse).trans (if_neg hendif))

/-- The contents that are no tokens. -/
theorem tokenFromTrimmed_eq_none_iff (done : Str) (htrim : Trimmed isSpace text) :
    tokenFromTrimmed done text = none ↔
      text = refIf ∨ (firstWord text = refElse ∧ text ≠ refElse) ∨
        (firstWord text = refEndif ∧ text ≠ refEndif) := by
  have hblank := blank_after_firstWord_iff htrim
  have hnil := after_firstWord_eq_nil_iff text
  by_cases hif : firstWord text = refIf
  · rw [tokenFromTrimmed_if done hif]
    simp [hblank, hif, show refIf ≠ refElse by decide, show refIf ≠ refEndif by decide]
  · have hbare : text ≠ refIf := by
      rintro rfl
      exact hif rfl
    by_cases helse : firstWord text = refElse
    · rw [tokenFromTrimmed_else done helse]
      simp [hnil, helse, hbare, show refElse ≠ refEndif by decide]
    · by_cases hendif : firstWord text = refEndif
      · rw [tokenFromTrimmed_endif done hendif]
        simp [hnil, hendif, hbare, show refEndif ≠ refElse by decide]
      · rw [tokenFromTrimmed_other done hif helse hendif]
        simp [hbare, helse, hendif]

theorem tokenFromTrimmed_typeAndText (h : tokenFromTrimmed done (stringTrim ph) = some tok) :
    tok.typeAndText = classify ph := by
  have hnil := after_firstWord_eq_nil_iff (stringTrim ph)
  have happend := firstWord_append (stringTrim ph)
  simp only [classify]
  by_cases hif : firstWord (stringTrim ph) = refIf
  · rw [tokenFromTrimmed_if done hif] at h
    split_ifs at h with hcond
    cases h
    rw [if_pos hif]
    have hdrop : (stringTrim ph).drop refIf.length =
        (stringTrim ph).dropWhile fun c => !isSpace c := by
      rw [← hif]
      nth_rewrite 2 [← happend]
      exact List.drop_left
    rw [hdrop]
    rfl
  · rw [if_neg hif]
    by_cases helse : firstWord (stringTrim ph) = refElse
    · rw [tokenFromTrimmed_else done helse] at h
      split_ifs at h with hpos
      cases h
      rw [if_pos ((hnil.mp (not_not.mp hpos)).trans helse)]
      rfl
    · have hne : stringTrim ph ≠ refElse := by
        intro heq
        rw [heq] at helse
        exact helse rfl
      rw [if_neg hne]
      by_cases hendif : firstWord (stringTrim ph) = refEndif
      · rw [tokenFromTrimmed_endif done hendif] at h
        split_ifs at h with hpos
        cases h
        rw [if_pos ((hnil.mp (not_not.mp hpos)).trans hendif)]
        rfl
      · have hne' : stringTrim ph ≠ refEndif := by
          intro heq
          rw [heq] at hendif
          exact hendif rfl
        rw [tokenFromTrimmed_other done hif helse hendif] at h
        cases h
        rw [if_neg hne']
        rfl

theorem goodContent_iff :
    GoodContent ph ↔ stringTrim ph ≠ [] ∧ ¬ (stringTrim ph = refIf ∨
      (firstWord (stringTrim ph) = refElse ∧ stringTrim ph ≠ refElse) ∨
        (firstWord (stringTrim ph) = refEndif ∧ stringTrim ph ≠ refEndif)) := by
  simp only [not_or, not_and, not_not]
  exact ⟨fun h => ⟨h.not_blank, h.not_bare_if, h.else_alone, h.endif_alone⟩,
    fun h => ⟨h.1, h.2.1, h.2.2.1, h.2.2.2⟩⟩

theorem tokenFromPhString_typeAndText (h : tokenFromPhString done ph = some tok) :
    tok.typeAndText = classify ph := by
  rw [tokenFromPhString] at h
  by_cases hblank : ph.dropWhile isSpace = []
  · simp [hblank] at h
  · simp only [hblank, if_false] at h
    exact tokenFromTrimmed_typeAndText h

theorem goodContent_of_token (h : tokenFromPhString done ph = some tok) : GoodContent ph := by
  rw [tokenFromPhString] at h
  by_cases hblank : ph.dropWhile isSpace = []
  · simp [hblank] at h
  · simp only [hblank, if_false] at h
    refine goodContent_iff.mpr ⟨mt stringTrim_eq_nil_iff.mp hblank, fun hbad => ?_⟩
    have hnone := (tokenFromTrimmed_eq_none_iff (done ++ ph.takeWhile isSpace)
      (trimmed_stringTrim ph)).mpr hbad
    rw [stringTrim, h] at hnone
    cases hnone

theorem GoodContent.exists_token (h : GoodContent ph) (done : Str) :
    ∃ tok, tokenFromPhString done ph = some tok := by
  obtain ⟨hne, hgood⟩ := goodContent_iff.mp h
  have hblank := mt stringTrim_eq_nil_iff.mpr hne
  rw [tokenFromPhString]
  simp only [hblank, if_false]
  refine Option.ne_none_iff_exists'.mp fun hnone => hgood ?_
  exact (tokenFromTrimmed_eq_none_iff _ (trimmed_stringTrim ph)).mp hnone

section Loop

variable {beginMarker endMarker : Marker}

variable {str done : Str} {tokens : List Token}

theorem tokenizeFrom_last (hbegin : find beginMarker str = none)
    (hend : find endMarker str = none) :
    tokenizeFrom beginMarker endMarker done str tokens =
      .ok (tokens ++ [tokenCreate .mttSch done str]) := by
  rw [tokenizeFrom]
  split
  · rw [hend]
  · next hbeg =>
      rw [hbegin] at hbeg
      cases hbeg

theorem tokenizeFrom_piece {chunk rest ph next : Str} {tok : Token}
    (hbegin : find beginMarker str = some (chunk, rest))
    (hend : find endMarker rest = some (ph, next)) (hph : find beginMarker ph = none)
    (hchunk : find endMarker chunk = none)
    (htok : tokenFromPhString (done ++ chunk ++ beginMarker) ph = some tok) :
    tokenizeFrom beginMarker endMarker done str tokens =
      tokenizeFrom beginMarker endMarker (done ++ chunk ++ beginMarker ++ ph ++ endMarker) next
        (tokens ++ [tokenCreate .mttSch done chunk, tok]) := by
  rw [tokenizeFrom]
  split
  · next hbeg =>
      rw [hbegin] at hbeg
      cases hbeg
  · next hbeg =>
      rw [hbegin] at hbeg
      cases hbeg
      split
      · next hend' =>
          rw [hend] at hend'
          cases hend'
      · next hend' =>
          rw [hend] at hend'
          cases hend'
          rw [hph, hchunk, htok]
          rfl

theorem tokenizeFrom_eq_ok {result : List Token}
    (h : tokenizeFrom beginMarker endMarker done str tokens = .ok result) :
    (find beginMarker str = none ∧ find endMarker str = none ∧
      result = tokens ++ [tokenCreate .mttSch done str]) ∨
    ∃ chunk rest ph next tok, find beginMarker str = some (chunk, rest) ∧
      find endMarker rest = some (ph, next) ∧
      find beginMarker ph = none ∧ find endMarker chunk = none ∧
      tokenFromPhString (done ++ chunk ++ beginMarker) ph = some tok ∧
      tokenizeFrom beginMarker endMarker (done ++ chunk ++ beginMarker ++ ph ++ endMarker) next
        (tokens ++ [tokenCreate .mttSch done chunk, tok]) = .ok result := by
  rw [tokenizeFrom] at h
  split at h
  · next hbeg =>
      split at h
      · cases h
      · next hend =>
          cases h
          exact .inl ⟨hbeg, hend, rfl⟩
  · next chunk rest hbeg =>
      split at h
      · cases h
      · next ph next' hend =>
          split_ifs at h with hph
          split at h
          · cases h
          · next hchunk =>
              split at h
              · cases h
              · next tok htok =>
                  exact .inr ⟨chunk, rest, ph, next', tok, hbeg, hend,
                    by simpa using hph, hchunk, htok, h⟩

theorem Splits.tokenizeFrom_eq {last : Str} {pieces : List (Str × Str)}
    (h : Splits beginMarker endMarker str pieces last) (done : Str) (tokens : List Token) :
    ∃ result, tokenizeFrom beginMarker endMarker done str tokens = .ok result ∧
      result.map Token.typeAndText =
        tokens.map Token.typeAndText ++ splitTokens pieces last := by
  induction h generalizing done tokens with
  | last hbegin hend =>
    refine ⟨_, tokenizeFrom_last (find_eq_none_iff.mpr hbegin)
      (find_eq_none_iff.mpr hend), ?_⟩
    rw [List.map_append]
    rfl
  | @piece chunk ph next last pieces hbegin hend hph hchunk hgood _ ih =>
    obtain ⟨tok, htok⟩ := hgood.exists_token (done ++ chunk ++ beginMarker)
    obtain ⟨result, hresult, hmap⟩ := ih (done ++ chunk ++ beginMarker ++ ph ++ endMarker)
      (tokens ++ [tokenCreate .mttSch done chunk, tok])
    refine ⟨result, ?_, ?_⟩
    · rw [tokenizeFrom_piece (find_eq_some_iff.mpr ⟨rfl, hbegin⟩)
        (find_eq_some_iff.mpr ⟨rfl, hend⟩) (find_eq_none_iff.mpr hph)
        (find_eq_none_iff.mpr hchunk) htok]
      exact hresult
    · have hkind := tokenFromPhString_typeAndText htok
      rw [hmap, List.map_append, List.append_assoc]
      simp only [List.map_cons, List.map_nil, hkind, splitTokens, List.flatMap_cons]
      rfl

theorem splits_of_tokenizeFrom {result : List Token}
    (h : tokenizeFrom beginMarker endMarker done str tokens = .ok result) :
    ∃ pieces last, Splits beginMarker endMarker str pieces last ∧
      result.map Token.typeAndText =
        tokens.map Token.typeAndText ++ splitTokens pieces last := by
  -- what is left gets shorter with every marker
  induction hn : str.length using Nat.strong_induction_on generalizing done str tokens with
  | _ n ih =>
    rcases tokenizeFrom_eq_ok h with ⟨hbegin, hend, rfl⟩ |
      ⟨chunk, rest, ph, next, tok, hbegin, hend, hph, hchunk, htok, hrest⟩
    · refine ⟨[], str, .last (find_eq_none_iff.mp hbegin) (find_eq_none_iff.mp hend), ?_⟩
      rw [List.map_append]
      rfl
    · have hlt : next.length < n := by
        have hlength := length_of_find hbegin
        have hlength' := length_of_find hend
        have hmarker := List.length_pos_iff.mpr beginMarker.property
        omega
      obtain ⟨pieces, last, hsplits, hmap⟩ := ih next.length hlt hrest rfl
      obtain ⟨rfl, hnone⟩ := find_eq_some_iff.mp hbegin
      obtain ⟨rfl, hnone'⟩ := find_eq_some_iff.mp hend
      refine ⟨(chunk, ph) :: pieces, last, .piece hnone hnone' (find_eq_none_iff.mp hph)
        (find_eq_none_iff.mp hchunk) (goodContent_of_token htok) hsplits, ?_⟩
      have hkind := tokenFromPhString_typeAndText htok
      rw [hmap, List.map_append, List.append_assoc]
      simp only [List.map_cons, List.map_nil, hkind, splitTokens, List.flatMap_cons]
      rfl

end Loop

/-- The tokenizer succeeds for exactly the texts that are cut at their leftmost markers into
chunks without end markers and good contents without begin markers, and its tokens are those of
the pieces. -/
theorem templateTokenizeString_eq_ok_iff (beginMarker endMarker : Marker) (src : Str)
    (kinds : List (TokenType × Str)) :
    (templateTokenizeString beginMarker endMarker src).map (List.map Token.typeAndText) =
        .ok kinds ↔
      ∃ pieces last, Splits beginMarker endMarker src pieces last ∧
        kinds = splitTokens pieces last := by
  rw [templateTokenizeString]
  constructor
  · intro h
    cases hresult : tokenizeFrom beginMarker endMarker [] src [] with
    | error descr =>
      rw [hresult] at h
      cases h
    | ok result =>
      rw [hresult] at h
      cases h
      exact splits_of_tokenizeFrom hresult
  · rintro ⟨pieces, last, hsplits, rfl⟩
    obtain ⟨result, hresult, hmap⟩ := hsplits.tokenizeFrom_eq [] []
    rw [hresult, Except.map, hmap]
    rfl

end Parser
end MistEngine
end KedrAux
