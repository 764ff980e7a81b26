import KedrAux.MistEngine.Nesting

/-!
# What the parser of templates accepts

The parser is followed over parts: tokens with the string chunks behind them.  Each function either
returns what the parts spell that it has read, or it stops with a syntax error, and then the
tokens are not well nested.  No assertion fails.
-/

namespace KedrAux
namespace MistEngine
namespace Parser

open ErrorCodes

variable {tokens : List Token} {istart : Nat} {t : Token} {rest : List Token}

theorem assert_ok {p : Prop} [Decidable p] (h : p) : assert p = .ok () :=
  if_pos h

section

variable (h : tokens.drop istart = t :: rest)
include h

theorem drop_cons :
    istart < tokens.length ∧ tokens[istart]? = some t ∧ tokens.drop (istart + 1) = rest := by
  have hlt : istart < tokens.length := by
    by_contra hle
    rw [List.drop_eq_nil_of_le (by omega)] at h
    cases h
  rw [List.drop_eq_getElem_cons hlt] at h
  cases h
  exact ⟨hlt, List.getElem?_eq_getElem hlt, rfl⟩

theorem element_eq : element tokens istart = .ok t := by
  rw [element, (drop_cons h).2.1]

theorem matchStringChunk_eq (ht : t.type = .mttSch) :
    matchStringChunk tokens istart = .ok (t.text, istart + 1) := by
  have hlt := (drop_cons h).1
  rw [matchStringChunk, assert_ok (by omega), ok_bind, assert_ok hlt, ok_bind, element_eq h, ok_bind,
    assert_ok ht, ok_bind]
  rfl

theorem matchKeyword_eq {type : TokenType} (ht : t.type = type) :
    matchKeyword tokens type istart = .ok (istart + 1) := by
  have hlt := (drop_cons h).1
  rw [matchKeyword, assert_ok (by omega), ok_bind, assert_ok hlt, ok_bind, element_eq h, ok_bind,
    assert_ok ht, ok_bind]
  rfl

end

theorem Token.Valid.readCondExpr (h : t.Valid) (ht : t.type = .mttIf) :
    nameIsBad (Parser.readCondExpr t.text).1 = false := by
  have hitem := h.item
  simp only [Token.item, ht] at hitem
  split_ifs at hitem with hbad
  · cases hitem
  · exact Bool.eq_false_iff.mpr hbad

theorem matchIf_eq (h : tokens.drop istart = t :: rest) (ht : t.type = .mttIf) (hvalid : t.Valid) :
    matchIf tokens istart = .ok (readCondExpr t.text, istart + 1) := by
  have hlt := (drop_cons h).1
  obtain ⟨hne, hhead, hlast⟩ := hvalid.trimmed ht
  have hname := hvalid.readCondExpr ht
  have hparse : parseCondExpr t.text = .ok (readCondExpr t.text) := by
    rw [parseCondExpr, assert_ok hne, ok_bind, assert_ok hhead, ok_bind, assert_ok hlast, ok_bind]
    rfl
  rw [matchIf, assert_ok (by omega), ok_bind, assert_ok hlt, ok_bind, element_eq h, ok_bind,
    assert_ok ht, ok_bind, hparse, ok_bind]
  generalize readCondExpr t.text = p at hname
  obtain ⟨name, isConcat⟩ := p
  exact if_neg (by rw [hname]; exact Bool.false_ne_true)

theorem Token.Valid.readPlaceholder (h : t.Valid) (ht : t.type = .mttPh) :
    ∃ name sep, Parser.readPlaceholder t.text = some (name, sep) ∧ nameIsBad name = false := by
  have hitem := h.item
  simp only [Token.item, ht, Option.isSome_map] at hitem
  obtain ⟨⟨name, sep⟩, hread⟩ := Option.isSome_iff_exists.mp hitem
  refine ⟨name, sep, hread, ?_⟩
  rw [Parser.readPlaceholder] at hread
  dsimp only at hread
  split at hread
  · split_ifs at hread with hbad
    cases hread
    exact Bool.eq_false_iff.mpr hbad
  · split at hread
    · cases hread
    · split_ifs at hread with hbad
      cases hread
      exact Bool.eq_false_iff.mpr hbad

variable {done left : Parts} {s x : Token}

theorem drop_parts (h : tokens.drop istart = Parts.tokens (done ++ left)) :
    tokens.drop (istart + 2 * done.length) = left.tokens := by
  rw [← List.drop_drop, h, Parts.tokens_append, ← Parts.length_tokens, List.drop_left]

theorem length_of_drop (h : tokens.drop istart = t :: rest) :
    tokens.length = istart + rest.length + 1 := by
  have hlt := (drop_cons h).1
  have hlength := congrArg List.length h
  rw [List.length_drop, List.length_cons] at hlength
  omega

/-- Parsing stops at the end, or in front of "else" or "endif". -/
def StopsAt (left : Parts) : Prop :=
  ∀ p ps, left = p :: ps → p.1.type = .mttElse ∨ p.1.type = .mttEndif

/-- A syntax error, and the parts are not well nested when the given conditional placeholders are
open in front of them. -/
def Fails {α : Type} (tokens : List Token) (opened : List Bool → List Bool) (parts : Parts)
    (r : Except ParseStop α) : Prop :=
  ∃ descr j, r = .error (.syntaxError descr j) ∧ j ≤ tokens.length ∧
    ∀ stack, parts.tokens.foldlM nest (opened stack) ≠ some []

/-- The outcome for a template: what the parts spell that were read is added to it. -/
def TemplateOutcome (tokens : List Token) (mt : Template) (istart : Nat) (parts : Parts)
    (r : Except ParseStop (Template × Nat)) : Prop :=
  (∃ done left ph sch, parts = done ++ left ∧ StopsAt left ∧ Spells ph sch done ∧
    r = .ok (⟨mt.sch ++ sch, mt.ph.append ph⟩, istart + 2 * done.length)) ∨
  Fails tokens id parts r

/-- Templates are parsed as they should be when less than `n` parts are left. -/
def ParsesTemplates (tokens : List Token) (n : Nat)
    (parseTemplate : Str → Nat → Except ParseStop (Template × Nat)) : Prop :=
  ∀ name s parts istart, nameIsBad name = false → parts.length < n → Parts.Valid parts →
    s.type = .mttSch → tokens.drop istart = s :: Parts.tokens parts →
    TemplateOutcome tokens ⟨[s.text], .nil⟩ (istart + 1) parts (parseTemplate name istart)

variable {parseTemplate : Str → Nat → Except ParseStop (Template × Nat)} {n : Nat} {parts : Parts}

theorem parseElse_endif (ht : t.type = .mttEndif) :
    parseElse tokens parseTemplate istart t = .ok (⟨[[]], .nil⟩, istart, t) := by
  have hne : t.type ≠ .mttElse := by
    rw [ht]
    intro heq
    cases heq
  exact if_neg hne

theorem parseElse_else (hsub : ParsesTemplates tokens n parseTemplate) (hlength : parts.length < n)
    (hvalid : Parts.Valid ((t, s) :: parts)) (ht : t.type = .mttElse)
    (h : tokens.drop istart = Parts.tokens ((t, s) :: parts)) :
    (∃ done y s' left ph sch, parts = done ++ (y, s') :: left ∧
      (y.type = .mttElse ∨ y.type = .mttEndif) ∧ Spells ph sch done ∧
      parseElse tokens parseTemplate istart t =
        .ok (⟨s.text :: sch, ph⟩, istart + 2 + 2 * done.length, y)) ∨
    Fails tokens (true :: ·) parts (parseElse tokens parseTemplate istart t) := by
  rw [Parts.tokens_cons] at h
  have hs := (drop_cons h).2.2
  have hlt := (drop_cons hs).1
  have hparts := (drop_cons hs).2.2
  have htotal := length_of_drop hs
  rw [Parts.length_tokens] at htotal
  have hparse : parseElse tokens parseTemplate istart t = (do
      let r ← parseTemplate nameElse (istart + 1)
      if tokens.length ≤ r.2 then
        .error (.syntaxError ⟨errElseWithoutEndif, none, t.line⟩ r.2)
      else
        return (r.1, r.2, ← element tokens r.2)) := by
    rw [parseElse, if_pos ht, matchElse, matchKeyword_eq h ht, ok_bind, assert_ok hlt, ok_bind]
  rw [hparse]
  rcases hsub nameElse s parts (istart + 1) rfl hlength hvalid.tail
    (hvalid.chunk _ List.mem_cons_self) hs with
    ⟨done, left, ph, sch, rfl, hstops, hspells, hr⟩ | ⟨descr, j, hr, hj, hnest⟩
  · rw [hr, ok_bind]
    dsimp only
    cases left with
    | nil =>
      rw [List.append_nil] at htotal
      refine Or.inr ⟨_, _, if_pos (by omega), by omega, fun stack => ?_⟩
      rw [List.append_nil, hspells.foldlM_nest hvalid.tail.append_left]
      intro heq
      cases heq
    | cons p left =>
      have hleft := drop_parts hparts
      rw [Parts.tokens_cons] at hleft
      have hlt' := (drop_cons hleft).1
      refine Or.inl ⟨done, p.1, p.2, left, ph, sch, rfl, hstops p left rfl, hspells, ?_⟩
      rw [if_neg (by omega), element_eq hleft]
      rfl
  · refine Or.inr ⟨descr, j, ?_, hj, fun stack => hnest (true :: stack)⟩
    rw [hr]
    rfl

/-- The outcome for a placeholder: the parts up to the chunk behind it spell it. -/
def PhOutcome (tokens : List Token) (istart : Nat) (parts : Parts)
    (r : Except ParseStop (Placeholders × Nat)) : Prop :=
  (∃ before y s left ph, parts = before ++ (y, s) :: left ∧
    r = .ok (ph, istart + 2 * before.length + 1) ∧
    ∀ rest sch done, Spells rest sch done →
      Spells (ph.append rest) (s.text :: sch) (before ++ (y, s) :: done)) ∨
  Fails tokens id parts r

theorem parsePlaceholder_outcome (hvalid : Parts.Valid ((x, s) :: parts)) (hx : x.type = .mttPh)
    (h : tokens.drop istart = Parts.tokens ((x, s) :: parts)) :
    PhOutcome tokens istart ((x, s) :: parts) (parsePlaceholder tokens istart) := by
  have hlt := (drop_cons h).1
  obtain ⟨name, sep, hread, hname⟩ := (hvalid.valid _ List.mem_cons_self).readPlaceholder hx
  have hparse : parsePlaceholder tokens istart = (do
      return (← placeholderCreate name sep, istart + 1)) := by
    rw [parsePlaceholder, assert_ok (by omega), ok_bind, assert_ok hlt, ok_bind, element_eq h, ok_bind,
      assert_ok hx, ok_bind, hread]
  rw [hparse]
  cases sep with
  | none =>
    rw [placeholderCreate, assert_ok hname, ok_bind]
    exact Or.inl ⟨[], x, s, parts, .plain name .nil, rfl, rfl,
      fun _ _ _ hrest => .plain hx hread hrest⟩
  | some sep =>
    rw [placeholderCreate, assert_ok hname, ok_bind]
    exact Or.inl ⟨[], x, s, parts, .join name sep .nil, rfl, rfl,
      fun _ _ _ hrest => .join hx hread hrest⟩

theorem Fails.of_if {α : Type} {r : Except ParseStop α} (hs : s.type = .mttSch)
    (hx : x.type = .mttIf) (h : Fails tokens (false :: ·) parts r) :
    Fails tokens id ((x, s) :: parts) r := by
  obtain ⟨descr, j, hr, hj, hnest⟩ := h
  refine ⟨descr, j, hr, hj, fun stack => ?_⟩
  rw [foldlM_nest_part hs, nest_if _ hx]
  exact hnest stack

variable {opened : List Bool → List Bool} {ph : Placeholders} {sch : List Str}

/-- What is open in front of the parts behind the placeholders of a branch. -/
theorem Fails.of_spells {α : Type} {r : Except ParseStop α} (hspells : Spells ph sch done)
    (hvalid : done.Valid) (h : Fails tokens opened left r) :
    Fails tokens opened (done ++ left) r := by
  obtain ⟨descr, j, hr, hj, hnest⟩ := h
  refine ⟨descr, j, hr, hj, fun stack => ?_⟩
  rw [foldlM_nest_append (hspells.foldlM_nest hvalid _)]
  exact hnest stack

theorem Fails.of_else {α : Type} {z : Token} {r : Except ParseStop α} (hs : s.type = .mttSch)
    (hz : z.type = .mttElse) (h : Fails tokens (true :: ·) parts r) :
    Fails tokens (false :: ·) ((z, s) :: parts) r := by
  obtain ⟨descr, j, hr, hj, hnest⟩ := h
  refine ⟨descr, j, hr, hj, fun stack => ?_⟩
  rw [foldlM_nest_part hs, nest_else _ hz]
  exact hnest stack

theorem Fails.bind {α β : Type} {r : Except ParseStop α} (h : Fails tokens opened parts r)
    (f : α → Except ParseStop β) :
    Fails tokens opened parts (r >>= f) := by
  obtain ⟨descr, j, rfl, hj, hnest⟩ := h
  exact ⟨descr, j, rfl, hj, hnest⟩

/-- A conditional placeholder from the end of its "then"-branch on. -/
def conditionalRest (tokens : List Token)
    (parseTemplate : Str → Nat → Except ParseStop (Template × Nat)) (tIf : Token)
    (expr : Str × Bool) (r : Template × Nat) : Except ParseStop (Placeholders × Nat) :=
  if tokens.length ≤ r.2 then
    .error (.syntaxError ⟨errIfWithoutEndif, none, tIf.line⟩ r.2)
  else do
    let t ← element tokens r.2
    let (tplElse, istart, t) ← parseElse tokens parseTemplate r.2 t
    if t.type = .mttEndif then
      let istart ← matchEndif tokens istart
      return (.cond expr.1 expr.2 r.1.sch r.1.ph tplElse.sch tplElse.ph .nil, istart)
    else
      assert (t.type = .mttElse)
      .error (.syntaxError ⟨errIfWithoutEndif, none, tIf.line⟩ istart)

theorem parseConditional_eq (hvalid : x.Valid) (hx : x.type = .mttIf)
    (h : tokens.drop istart = x :: s :: rest) :
    parseConditional tokens parseTemplate istart =
      parseTemplate nameThen (istart + 1) >>=
        conditionalRest tokens parseTemplate x (readCondExpr x.text) := by
  have hlt := (drop_cons h).1
  have hlt' := (drop_cons (drop_cons h).2.2).1
  rw [parseConditional, assert_ok (by omega), ok_bind, assert_ok hlt, ok_bind, element_eq h, ok_bind,
    matchIf_eq h hx hvalid, ok_bind]
  dsimp only
  rw [assert_ok hlt', ok_bind]
  rfl

theorem conditionalRest_outcome (hsub : ParsesTemplates tokens n parseTemplate) {y s' : Token}
    (hlength : left.length < n) (hvalid : Parts.Valid ((x, s) :: (done ++ (y, s') :: left)))
    (hx : x.type = .mttIf) (hspells : Spells ph sch done)
    (hy : y.type = .mttElse ∨ y.type = .mttEndif)
    (h : tokens.drop (istart + 2 + 2 * done.length) = Parts.tokens ((y, s') :: left)) :
    PhOutcome tokens istart ((x, s) :: (done ++ (y, s') :: left))
      (conditionalRest tokens parseTemplate x (readCondExpr x.text)
        (⟨s.text :: sch, ph⟩, istart + 2 + 2 * done.length)) := by
  have hlt := (drop_cons h).1
  have hname := (hvalid.valid _ List.mem_cons_self).readCondExpr hx
  have hleft := hvalid.tail.append_right
  rw [conditionalRest, if_neg (by omega), element_eq h, ok_bind]
  rcases hy with hy | hy
  · rcases parseElse_else hsub hlength hleft hy h with
      ⟨done', y', s'', left', ph', sch', rfl, hy', hspells', hr⟩ | hfails
    · rw [hr, ok_bind]
      dsimp only
      have hy'drop : tokens.drop (istart + 2 + 2 * done.length + 2 + 2 * done'.length) =
          Parts.tokens ((y', s'') :: left') := by
        have hnext := (drop_cons (drop_cons h).2.2).2.2
        exact drop_parts hnext
      rcases hy' with hy' | hy'
      · -- a second "else"
        have hne : y'.type ≠ .mttEndif := by
          rw [hy']
          intro heq
          cases heq
        rw [if_neg hne, assert_ok hy', ok_bind]
        have hj := (drop_cons hy'drop).1
        refine Or.inr (Fails.of_if (hvalid.chunk _ List.mem_cons_self) hx
          (Fails.of_spells hspells hvalid.tail.append_left
            (Fails.of_else (hleft.chunk _ List.mem_cons_self) hy
              (Fails.of_spells hspells' hleft.tail.append_left
                ⟨_, _, rfl, by omega, fun stack => ?_⟩))))
        have hnone : nest (true :: stack) y' = none := by
          simp only [nest, hy']
        rw [foldlM_nest_part (hleft.tail.append_right.chunk _ List.mem_cons_self), hnone]
        intro heq
        cases heq
      · rw [if_pos hy', matchEndif, matchKeyword_eq hy'drop hy', ok_bind]
        refine Or.inl ⟨(x, s) :: (done ++ (y, s') :: done'), y', s'', left',
          .cond (readCondExpr x.text).1 (readCondExpr x.text).2 (s.text :: sch) ph (s'.text :: sch')
            ph' .nil, ?_, ?_, fun rest sch1 done1 hrest => ?_⟩
        · simp only [List.cons_append, List.append_assoc]
        · have hindex : istart + 2 + 2 * done.length + 2 + 2 * done'.length + 1 =
              istart + 2 * ((x, s) :: (done ++ (y, s') :: done')).length + 1 := by
            simp only [List.length_cons, List.length_append]
            omega
          rw [hindex]
          rfl
        · simp only [List.cons_append, List.append_assoc]
          exact .condElse hx rfl hname hspells hy hspells' hy' hrest
    · exact Or.inr (Fails.of_if (hvalid.chunk _ List.mem_cons_self) hx
        (Fails.of_spells hspells hvalid.tail.append_left
          (Fails.of_else (hleft.chunk _ List.mem_cons_self) hy (hfails.bind _))))
  · rw [parseElse_endif hy, ok_bind]
    dsimp only
    rw [if_pos hy, matchEndif, matchKeyword_eq h hy, ok_bind]
    refine Or.inl ⟨(x, s) :: done, y, s', left,
      .cond (readCondExpr x.text).1 (readCondExpr x.text).2 (s.text :: sch) ph [[]] .nil .nil, rfl,
      ?_, fun rest sch1 done1 hrest => ?_⟩
    · have hindex : istart + 2 + 2 * done.length + 1 =
          istart + 2 * ((x, s) :: done).length + 1 := by
        rw [List.length_cons]
        omega
      rw [hindex]
      rfl
    · exact .cond hx rfl hname hspells hy hrest

theorem parseConditional_outcome (hsub : ParsesTemplates tokens n parseTemplate)
    (hlength : parts.length < n) (hvalid : Parts.Valid ((x, s) :: parts)) (hx : x.type = .mttIf)
    (h : tokens.drop istart = Parts.tokens ((x, s) :: parts)) :
    PhOutcome tokens istart ((x, s) :: parts) (parseConditional tokens parseTemplate istart) := by
  have hchunk := hvalid.chunk _ List.mem_cons_self
  rw [parseConditional_eq (hvalid.valid _ List.mem_cons_self) hx h]
  have hs := (drop_cons h).2.2
  have hparts := (drop_cons hs).2.2
  have htotal := length_of_drop hs
  change tokens.length = istart + 1 + (Parts.tokens parts).length + 1 at htotal
  rw [Parts.length_tokens] at htotal
  rcases hsub nameThen s parts (istart + 1) rfl hlength hvalid.tail hchunk hs with
    ⟨done, left, ph, sch, rfl, hstops, hspells, hr⟩ | ⟨descr, j, hr, hj, hnest⟩
  · rw [hr, ok_bind]
    cases left with
    | nil =>
      -- the "then"-branch goes on to the end
      rw [List.append_nil] at htotal
      rw [conditionalRest, if_pos (by dsimp only; omega)]
      refine Or.inr (Fails.of_if hchunk hx ⟨_, _, rfl, by omega, fun stack => ?_⟩)
      rw [List.append_nil, hspells.foldlM_nest hvalid.tail.append_left]
      intro heq
      cases heq
    | cons p left =>
      obtain ⟨y, s'⟩ := p
      rw [List.length_append, List.length_cons] at hlength
      exact conditionalRest_outcome hsub (by omega) hvalid hx hspells (hstops _ _ rfl)
        (drop_parts hparts)
  · rw [hr]
    exact Or.inr (Fails.of_if hchunk hx ⟨descr, j, rfl, hj, fun stack => hnest (false :: stack)⟩)

theorem parsePhExpression_stop
    (h : tokens.drop istart = t :: rest) (ht : t.type = .mttElse ∨ t.type = .mttEndif) :
    parsePhExpression tokens parseTemplate istart = .ok (none, istart) := by
  have hlt := (drop_cons h).1
  rw [parsePhExpression, assert_ok (by omega), ok_bind, assert_ok hlt, ok_bind, element_eq h, ok_bind]
  have hassert := assert_ok ht
  rcases ht with ht | ht
  · simp only [ht] at hassert ⊢
    rw [hassert]
    rfl
  · simp only [ht] at hassert ⊢
    rw [hassert]
    rfl

theorem parsePhExpression_outcome (hsub : ParsesTemplates tokens n parseTemplate)
    (hlength : parts.length < n) (hvalid : Parts.Valid ((x, s) :: parts))
    (hx : ¬ (x.type = .mttElse ∨ x.type = .mttEndif))
    (h : tokens.drop istart = Parts.tokens ((x, s) :: parts)) :
    ∃ r, PhOutcome tokens istart ((x, s) :: parts) r ∧
      parsePhExpression tokens parseTemplate istart = r >>= fun p => .ok (some p.1, p.2) := by
  have hlt := (drop_cons h).1
  rw [parsePhExpression, assert_ok (by omega), ok_bind, assert_ok hlt, ok_bind, element_eq h, ok_bind]
  cases htype : x.type with
  | mttSch => exact absurd htype (hvalid.other _ List.mem_cons_self)
  | mttElse => exact absurd (Or.inl htype) hx
  | mttEndif => exact absurd (Or.inr htype) hx
  | mttIf => exact ⟨_, parseConditional_outcome hsub hlength hvalid htype h, rfl⟩
  | mttPh =>
    have houtcome := parsePlaceholder_outcome hvalid htype h
    refine ⟨_, houtcome, ?_⟩
    rcases houtcome with ⟨before, y, s', left, ph, -, hr, -⟩ | ⟨descr, j, hr, -, -⟩
    · rw [hr]
      rfl
    · rw [hr]
      rfl

@[simp] theorem placeholders_append_nil (ph : Placeholders) : ph.append .nil = ph := by
  induction ph with
  | nil => rfl
  | plain name rest ih => rw [Placeholders.append, ih]
  | join name sep rest ih => rw [Placeholders.append, ih]
  | cond name isConcat thenSch thenPh elseSch elsePh rest _ _ ih => rw [Placeholders.append, ih]

theorem templateLoop_outcome
    (hsub : ParsesTemplates tokens n parseTemplate) (fuel : Nat) (mt : Template)
    (hlength : parts.length ≤ n) (hfuel : parts.length < fuel) (hvalid : parts.Valid)
    (h : tokens.drop istart = parts.tokens) :
    TemplateOutcome tokens mt istart parts
      (templateLoop tokens (parsePhExpression tokens parseTemplate) fuel mt istart) := by
  induction fuel generalizing parts mt istart with
  | zero => exact absurd hfuel (Nat.not_lt_zero _)
  | succ fuel ih =>
    rw [templateLoop]
    cases parts with
    | nil =>
      have hle : ¬ istart < tokens.length := Nat.not_lt.mpr (List.drop_eq_nil_iff.mp h)
      refine Or.inl ⟨[], [], .nil, [], rfl, fun _ _ hnil => (by cases hnil), .nil, ?_⟩
      rw [if_neg hle, placeholders_append_nil, List.append_nil]
      rfl
    | cons p parts =>
      obtain ⟨x, s⟩ := p
      have hlt := (drop_cons h).1
      rw [if_pos hlt]
      by_cases hx : x.type = .mttElse ∨ x.type = .mttEndif
      · -- in front of "else" or "endif"
        refine Or.inl ⟨[], (x, s) :: parts, .nil, [], rfl, ?_, .nil, ?_⟩
        · rintro p ps heq
          cases heq
          exact hx
        · rw [parsePhExpression_stop h hx, ok_bind]
          dsimp only
          rw [assert_ok hlt, ok_bind, element_eq h, ok_bind, if_pos hx, assert_ok rfl,
            placeholders_append_nil, List.append_nil]
          rfl
      · rw [List.length_cons] at hlength hfuel
        obtain ⟨r, houtcome, hr⟩ := parsePhExpression_outcome hsub (by omega) hvalid hx h
        rw [hr]
        rcases houtcome with ⟨before, y, s', left, ph, hparts, rfl, hspells⟩ | hfails
        · have hleftValid : Parts.Valid ((y, s') :: left) := by
            rw [hparts] at hvalid
            exact hvalid.append_right
          have hchunk := hleftValid.chunk _ List.mem_cons_self
          have hleft : tokens.drop (istart + 2 * before.length + 1) = s' :: Parts.tokens left := by
            rw [hparts] at h
            exact (drop_cons (drop_parts h)).2.2
          have hshort : left.length ≤ parts.length := by
            have hcount := congrArg List.length hparts
            rw [List.length_cons, List.length_append, List.length_cons] at hcount
            omega
          have hne : ¬ (s'.type = .mttElse ∨ s'.type = .mttEndif) := by
            rw [hchunk]
            rintro (heq | heq)
            · cases heq
            · cases heq
          have hrest := ih ⟨mt.sch ++ [s'.text], mt.ph.append ph⟩ (hshort.trans (by omega))
            (Nat.lt_of_le_of_lt hshort (by omega)) hleftValid.tail (drop_cons hleft).2.2
          simp only [ok_bind, assert_ok (drop_cons hleft).1, element_eq hleft, if_neg hne,
            matchStringChunk_eq hleft hchunk]
          rcases hrest with ⟨done, left', ph', sch', rfl, hstops, hspells', hr'⟩ | hfails
          · refine Or.inl ⟨before ++ (y, s') :: done, left', ph.append ph', s'.text :: sch', ?_,
              hstops, hspells ph' sch' done hspells', ?_⟩
            · rw [hparts, List.append_assoc]
              rfl
            · rw [hr', Placeholders.append_assoc, List.append_assoc, List.length_append,
                List.length_cons]
              have hindex : istart + 2 * before.length + 1 + 1 + 2 * done.length =
                  istart + 2 * (before.length + (done.length + 1)) := by
                omega
              rw [hindex]
              rfl
          · obtain ⟨descr, j, hr', hj, hnest⟩ := hfails
            refine Or.inr ⟨descr, j, hr', hj, fun stack => ?_⟩
            -- what was read is well nested
            have hread := hspells .nil [] [] .nil
            have hreadValid : Parts.Valid (before ++ [(y, s')]) := by
              have hall : Parts.Valid ((before ++ [(y, s')]) ++ left) := by
                rw [List.append_assoc]
                exact hparts ▸ hvalid
              exact hall.append_left
            have hsplit : before ++ (y, s') :: left = (before ++ [(y, s')]) ++ left := by
              rw [List.append_assoc]
              rfl
            rw [hparts, hsplit, foldlM_nest_append (hread.foldlM_nest hreadValid _)]
            exact hnest stack
        · exact Or.inr (hfails.bind _ |>.bind _)

theorem parsesTemplates (tokens : List Token) (fuel : Nat) :
    ParsesTemplates tokens fuel (Parser.parseTemplate tokens fuel) := by
  induction fuel with
  | zero => exact fun _ _ _ _ _ hlength => absurd hlength (Nat.not_lt_zero _)
  | succ fuel ih =>
    intro name s parts istart hname hlength hvalid hs h
    have htotal := length_of_drop h
    rw [Parts.length_tokens] at htotal
    rw [Parser.parseTemplate, assert_ok (by omega), ok_bind, assert_ok (by omega), ok_bind,
      assert_ok hname, ok_bind, matchStringChunk_eq h hs, ok_bind]
    exact templateLoop_outcome ih tokens.length ⟨[s.text], .nil⟩ (by omega) (by omega) hvalid
      (drop_cons h).2.2

theorem templateFromTokens_outcome {name : Str} (hname : nameIsBad name = false)
    (hs : s.type = .mttSch) (hvalid : parts.Valid) :
    (∃ ph sch, Spells ph sch parts ∧
      templateFromTokens (s :: parts.tokens) name = .ok ⟨s.text :: sch, ph⟩) ∨
    (∃ descr j, templateFromTokens (s :: parts.tokens) name = .error (.syntaxError descr j)) ∧
      parts.tokens.foldlM nest [] ≠ some [] := by
  have htotal : (s :: parts.tokens).length = 2 * parts.length + 1 := by
    rw [List.length_cons, Parts.length_tokens]
  rw [templateFromTokens, assert_ok (by omega), ok_bind]
  rcases parsesTemplates (s :: parts.tokens) (s :: parts.tokens).length name s parts 0 hname
    (by omega) hvalid hs rfl with ⟨done, left, ph, sch, rfl, hstops, hspells, hr⟩ | hfails
  · rw [hr]
    cases left with
    | nil =>
      refine Or.inl ⟨ph, sch, by rw [List.append_nil]; exact hspells, ?_⟩
      rw [List.append_nil] at htotal ⊢
      have hend : 0 + 1 + 2 * done.length = (s :: Parts.tokens done).length := by omega
      dsimp only
      rw [hend, assert_ok (Nat.le_refl _), ok_bind, if_neg (Nat.lt_irrefl _)]
      rfl
    | cons p left =>
      obtain ⟨y, s'⟩ := p
      have hy : y.type = .mttElse ∨ y.type = .mttEndif := hstops (y, s') left rfl
      have hdrop : (s :: Parts.tokens (done ++ (y, s') :: left)).drop (0 + 1 + 2 * done.length) =
          Parts.tokens ((y, s') :: left) :=
        drop_parts rfl
      have hlt := (drop_cons hdrop).1
      have hrest := hvalid.append_right
      have hnone : nest [] y = none := by
        rcases hy with hy | hy
        · simp only [nest, hy]
        · simp only [nest, hy]
      dsimp only
      rw [assert_ok (by omega), ok_bind, if_pos hlt, element_eq hdrop, ok_bind, assert_ok hy, ok_bind]
      refine Or.inr ⟨⟨_, _, rfl⟩, ?_⟩
      rw [foldlM_nest_append (hspells.foldlM_nest hvalid.append_left []),
        foldlM_nest_part (hrest.chunk _ List.mem_cons_self), hnone]
      intro heq
      cases heq
  · obtain ⟨descr, j, hr, hj, hnest⟩ := hfails
    refine Or.inr ⟨⟨descr, j, ?_⟩, hnest []⟩
    rw [hr]
    dsimp only
    rw [assert_ok hj, ok_bind]

/-- No assertion fails; the parser succeeds exactly for well nested tokens.  Then the template and
its branches have one more chunk than placeholders, and the template written out gives the tokens
without each "else" that has only an empty string before its "endif". -/
theorem templateFromTokens_accepts
    {tokens : List Token} {name : Str} (hname : nameIsBad name = false)
    (hshape : Alternating tokens) (hvalid : ∀ t ∈ tokens, t.Valid) :
    ((∃ mt, templateFromTokens tokens name = .ok mt) ∨
      ∃ descr j, templateFromTokens tokens name = .error (.syntaxError descr j)) ∧
    ((∃ mt, templateFromTokens tokens name = .ok mt) ↔ WellNested tokens) ∧
    ∀ mt, templateFromTokens tokens name = .ok mt →
      mt.WellFormed ∧ mt.items = dropEmptyElse (tokens.filterMap Token.item) := by
  obtain ⟨s, parts, rfl, hs, hparts⟩ := hshape.exists_parts hvalid
  have hnested : WellNested (s :: parts.tokens) ↔ parts.tokens.foldlM nest [] = some [] := by
    rw [WellNested, List.foldlM_cons, nest_sch _ hs]
    rfl
  rcases templateFromTokens_outcome hname hs hparts with
    ⟨ph, sch, hspells, hok⟩ | ⟨⟨descr, j, herror⟩, hnot⟩
  · refine ⟨Or.inl ⟨_, hok⟩, ⟨fun _ => ?_, fun _ => ⟨_, hok⟩⟩, fun mt hmt => ?_⟩
    · exact hnested.mpr (hspells.foldlM_nest hparts [])
    · rw [hok] at hmt
      cases hmt
      obtain ⟨hlength, hwell⟩ := hspells.wellFormed
      have hitems := hspells.dropEmptyElse_items hparts []
      rw [List.append_nil, dropEmptyElse, List.append_nil, Parts.items] at hitems
      refine ⟨⟨congrArg Nat.succ hlength, hwell⟩, ?_⟩
      rw [List.filterMap_cons, item_sch hs]
      dsimp only
      rw [dropEmptyElse_sch, hitems]
      rfl
  · rw [herror]
    refine ⟨Or.inr ⟨descr, j, rfl⟩, ⟨?_, fun h => absurd (hnested.mp h) hnot⟩, ?_⟩
    · rintro ⟨mt, hmt⟩
      cases hmt
    · intro mt hmt
      cases hmt

/-- "<$if c$>x<$else$><$endif$>" -/
def emptyElse : List Token :=
  [⟨.mttSch, [], 1⟩, ⟨.mttIf, [99], 1⟩, ⟨.mttSch, [120], 1⟩, ⟨.mttElse, [], 1⟩, ⟨.mttSch, [], 1⟩,
    ⟨.mttEndif, [], 1⟩, ⟨.mttSch, [], 1⟩]

/-- "<$if c$>x<$endif$>" -/
def noElse : List Token :=
  [⟨.mttSch, [], 1⟩, ⟨.mttIf, [99], 1⟩, ⟨.mttSch, [120], 1⟩, ⟨.mttEndif, [], 1⟩, ⟨.mttSch, [], 1⟩]

theorem valid_emptyElse : ∀ t ∈ emptyElse, t.Valid := by
  intro t ht
  fin_cases ht
  all_goals exact ⟨rfl, by simp [isSpace, wspace]⟩

theorem valid_noElse : ∀ t ∈ noElse, t.Valid := by
  intro t ht
  fin_cases ht
  all_goals exact ⟨rfl, by simp [isSpace, wspace]⟩

theorem alternating_emptyElse : Alternating emptyElse :=
  ⟨rfl, nofun, rfl, nofun, rfl, nofun, rfl⟩

theorem alternating_noElse : Alternating noElse :=
  ⟨rfl, nofun, rfl, nofun, rfl⟩

/-- An empty "else" is stored like a missing one. -/
theorem templateFromTokens_emptyElse :
    WellNested emptyElse ∧ ∀ mt, templateFromTokens emptyElse [116] = .ok mt →
      mt.WellFormed ∧ mt.items = dropEmptyElse (emptyElse.filterMap Token.item) :=
  ⟨rfl, (templateFromTokens_accepts rfl alternating_emptyElse valid_emptyElse).2.2⟩

/-- Both lists of tokens give one template, so it cannot be written out to both of them. -/
theorem no_writing_out :
    templateFromTokens emptyElse [116] = templateFromTokens noElse [116] ∧
      ¬ ∃ write : Template → List Item, ∀ tokens mt, Alternating tokens →
        (∀ t ∈ tokens, t.Valid) → templateFromTokens tokens [116] = .ok mt →
        write mt = tokens.filterMap Token.item := by
  have hempty : templateFromTokens emptyElse [116] =
      .ok ⟨[[], []], .cond [99] false [[120]] .nil [[]] .nil .nil⟩ := rfl
  have hno : templateFromTokens noElse [116] =
      .ok ⟨[[], []], .cond [99] false [[120]] .nil [[]] .nil .nil⟩ := rfl
  refine ⟨hempty.trans hno.symm, ?_⟩
  rintro ⟨write, hwrite⟩
  have h1 := hwrite emptyElse _ alternating_emptyElse valid_emptyElse hempty
  have h2 := hwrite noElse _ alternating_noElse valid_noElse hno
  have heq : emptyElse.filterMap Token.item = noElse.filterMap Token.item := h1.symm.trans h2
  have hlength := congrArg List.length heq
  cases hlength

end Parser
end MistEngine
end KedrAux
