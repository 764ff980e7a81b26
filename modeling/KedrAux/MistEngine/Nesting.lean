import KedrAux.MistEngine.Parser

/-!
# Nesting of conditional placeholders

The parser accepts exactly the lists of tokens in which "if", "else" and "endif" are well nested.
A template that it makes is spelled by its tokens: writing the template out gives the tokens back,
without each "else" that has only an empty string before its "endif".
-/

namespace KedrAux
namespace MistEngine

inductive Item where
  | sch (text : Str)
  | ph (name : Str) (sep : Option Str)
  | cond (name : Str) (isConcat : Bool)
  | otherwise
  | endif
deriving DecidableEq

/-- The placeholders, with the string chunk behind each of them.  An "else"-branch with nothing but
one empty chunk is left out. -/
def Placeholders.items : Placeholders → List Str → List Item
  | .nil, _ => []
  | .plain name rest, sch => .ph name none :: .sch (sch.headD []) :: rest.items sch.tail
  | .join name sep rest, sch => .ph name (some sep) :: .sch (sch.headD []) :: rest.items sch.tail
  | .cond name isConcat thenSch thenPh elseSch elsePh rest, sch =>
    .cond name isConcat :: .sch (thenSch.headD []) :: (thenPh.items thenSch.tail ++
      ((if elseSch = [[]] ∧ elsePh = .nil then []
        else .otherwise :: .sch (elseSch.headD []) :: elsePh.items elseSch.tail) ++
      .endif :: .sch (sch.headD []) :: rest.items sch.tail))

def Template.items (t : Template) : List Item :=
  .sch (t.sch.headD []) :: t.ph.items t.sch.tail

/-- Leaves out each "else" that has only an empty string before its "endif". -/
def dropEmptyElse : List Item → List Item
  | [] => []
  | .otherwise :: .sch [] :: .endif :: rest => .endif :: dropEmptyElse rest
  | item :: rest => item :: dropEmptyElse rest

theorem Placeholders.append_assoc (ph ph' ph'' : Placeholders) :
    (ph.append ph').append ph'' = ph.append (ph'.append ph'') := by
  induction ph with
  | nil => rfl
  | plain name rest ih => rw [append, append, append, ih]
  | join name sep rest ih => rw [append, append, append, ih]
  | cond name isConcat thenSch thenPh elseSch elsePh rest _ _ ih => rw [append, append, append, ih]

namespace Parser

def Token.item (t : Token) : Option Item :=
  match t.type with
  | .mttSch => some (.sch t.text)
  | .mttPh => (readPlaceholder t.text).map fun p => .ph p.1 p.2
  | .mttIf =>
    let p := readCondExpr t.text
    if nameIsBad p.1 then none else some (.cond p.1 p.2)
  | .mttElse => some .otherwise
  | .mttEndif => some .endif

/-- The placeholder or the conditional expression is valid.  The latter has no spaces at its ends,
because the tokenizer removes them. -/
structure Token.Valid (t : Token) : Prop where
  item : t.item.isSome = true
  trimmed : t.type = .mttIf → t.text ≠ [] ∧ t.text.head?.any isSpace = false ∧
    t.text.getLast?.any isSpace = false

/-- String chunks at both ends, and one between any two other tokens. -/
def Alternating : List Token → Prop
  | [] => False
  | [t] => t.type = .mttSch
  | t :: x :: rest => t.type = .mttSch ∧ x.type ≠ .mttSch ∧ Alternating rest

/-- The conditional placeholders that are open after a token: whether they had their "else", the
innermost one first. -/
def nest (stack : List Bool) (t : Token) : Option (List Bool) :=
  match t.type, stack with
  | .mttIf, stack => some (false :: stack)
  | .mttElse, false :: stack => some (true :: stack)
  | .mttElse, _ => none
  | .mttEndif, _ :: stack => some stack
  | .mttEndif, [] => none
  | _, stack => some stack

/-- Each "if" has its "endif", with at most one "else" between them. -/
def WellNested (tokens : List Token) : Prop :=
  tokens.foldlM nest [] = some []

/-- Tokens with the string chunks behind them. -/
abbrev Parts := List (Token × Token)

def Parts.tokens (parts : Parts) : List Token :=
  parts.flatMap fun p => [p.1, p.2]

structure Parts.Valid (parts : Parts) : Prop where
  chunk : ∀ p ∈ parts, p.2.type = .mttSch
  other : ∀ p ∈ parts, p.1.type ≠ .mttSch
  valid : ∀ p ∈ parts, p.1.Valid

@[simp] theorem Parts.tokens_cons (x s : Token) (parts : Parts) :
    Parts.tokens ((x, s) :: parts) = x :: s :: parts.tokens :=
  rfl

@[simp] theorem Parts.tokens_append (parts parts' : Parts) :
    Parts.tokens (parts ++ parts') = parts.tokens ++ parts'.tokens :=
  List.flatMap_append ..

theorem Parts.length_tokens (parts : Parts) : parts.tokens.length = 2 * parts.length := by
  induction parts with
  | nil => rfl
  | cons p parts ih =>
    rw [tokens_cons, List.length_cons, List.length_cons, ih, List.length_cons]
    omega

variable {parts parts' : Parts}

theorem Parts.Valid.append_left (h : Parts.Valid (parts ++ parts')) : parts.Valid :=
  ⟨fun p hp => h.chunk p (List.mem_append_left _ hp),
    fun p hp => h.other p (List.mem_append_left _ hp),
    fun p hp => h.valid p (List.mem_append_left _ hp)⟩

theorem Parts.Valid.append_right (h : Parts.Valid (parts ++ parts')) : parts'.Valid :=
  ⟨fun p hp => h.chunk p (List.mem_append_right _ hp),
    fun p hp => h.other p (List.mem_append_right _ hp),
    fun p hp => h.valid p (List.mem_append_right _ hp)⟩

theorem Parts.Valid.tail {p : Token × Token} (h : Parts.Valid (p :: parts)) : parts.Valid :=
  (show Parts.Valid ([p] ++ parts) from h).append_right

theorem Alternating.exists_parts
    {tokens : List Token} (h : Alternating tokens) (hvalid : ∀ t ∈ tokens, t.Valid) :
    ∃ s parts, tokens = s :: Parts.tokens parts ∧ s.type = .mttSch ∧ parts.Valid := by
  induction tokens using Alternating.induct with
  | case1 => exact h.elim
  | case2 t =>
    exact ⟨t, [], rfl, h, fun _ hp => (by cases hp), fun _ hp => (by cases hp),
      fun _ hp => (by cases hp)⟩
  | case3 t x rest ih =>
    obtain ⟨ht, hx, hrest⟩ := h
    obtain ⟨s, parts, rfl, hs, hparts⟩ := ih hrest fun t' ht' =>
      hvalid t' (List.mem_cons_of_mem _ (List.mem_cons_of_mem _ ht'))
    refine ⟨t, (x, s) :: parts, rfl, ht, fun p hp => ?_, fun p hp => ?_, fun p hp => ?_⟩
    · rcases List.mem_cons.mp hp with rfl | hp
      · exact hs
      · exact hparts.chunk p hp
    · rcases List.mem_cons.mp hp with rfl | hp
      · exact hx
      · exact hparts.other p hp
    · rcases List.mem_cons.mp hp with rfl | hp
      · exact hvalid x (List.mem_cons_of_mem _ List.mem_cons_self)
      · exact hparts.valid p hp

/-- The parts spell the placeholders, with the string chunks behind them. -/
inductive Spells : Placeholders → List Str → Parts → Prop where
  | nil : Spells .nil [] []
  | plain {x s name rest sch parts}
      (hx : x.type = .mttPh)
      (hread : readPlaceholder x.text = some (name, none))
      (h : Spells rest sch parts) :
      Spells (.plain name rest) (s.text :: sch) ((x, s) :: parts)
  | join {x s name sep rest sch parts}
      (hx : x.type = .mttPh)
      (hread : readPlaceholder x.text = some (name, some sep))
      (h : Spells rest sch parts) :
      Spells (.join name sep rest) (s.text :: sch) ((x, s) :: parts)
  | cond {x y s s' name isConcat thenSch thenPh thenParts rest sch parts}
      (hx : x.type = .mttIf)
      (hread : readCondExpr x.text = (name, isConcat))
      (hname : nameIsBad name = false)
      (hthen : Spells thenPh thenSch thenParts)
      (hy : y.type = .mttEndif)
      (h : Spells rest sch parts) :
      Spells (.cond name isConcat (s.text :: thenSch) thenPh [[]] .nil rest) (s'.text :: sch)
        ((x, s) :: (thenParts ++ (y, s') :: parts))
  | condElse {x y z s s' s'' name isConcat thenSch thenPh thenParts elseSch elsePh elseParts rest
      sch parts}
      (hx : x.type = .mttIf)
      (hread : readCondExpr x.text = (name, isConcat))
      (hname : nameIsBad name = false)
      (hthen : Spells thenPh thenSch thenParts)
      (hz : z.type = .mttElse)
      (helse : Spells elsePh elseSch elseParts)
      (hy : y.type = .mttEndif)
      (h : Spells rest sch parts) :
      Spells (.cond name isConcat (s.text :: thenSch) thenPh (s''.text :: elseSch) elsePh rest)
        (s'.text :: sch)
        ((x, s) :: (thenParts ++ (z, s'') :: (elseParts ++ (y, s') :: parts)))

variable {ph : Placeholders} {sch : List Str} {parts : Parts}

theorem Spells.wellFormed (h : Spells ph sch parts) : sch.length = ph.length ∧ ph.WellFormed := by
  induction h with
  | nil => exact ⟨rfl, trivial⟩
  | plain _ _ _ ih
  | join _ _ _ ih => exact ⟨congrArg Nat.succ ih.1, ih.2⟩
  | cond _ _ _ _ _ _ ihThen ih =>
    exact ⟨congrArg Nat.succ ih.1, ⟨congrArg Nat.succ ihThen.1, ihThen.2⟩, ⟨rfl, trivial⟩, ih.2⟩
  | condElse _ _ _ _ _ _ _ _ ihThen ihElse ih =>
    exact ⟨congrArg Nat.succ ih.1, ⟨congrArg Nat.succ ihThen.1, ihThen.2⟩,
      ⟨congrArg Nat.succ ihElse.1, ihElse.2⟩, ih.2⟩

section Nest

variable {t : Token} (stack : List Bool)

theorem nest_sch (h : t.type = .mttSch) : nest stack t = some stack := by
  simp only [nest, h]

theorem nest_ph (h : t.type = .mttPh) : nest stack t = some stack := by
  simp only [nest, h]

theorem nest_if (h : t.type = .mttIf) : nest stack t = some (false :: stack) := by
  simp only [nest, h]

theorem nest_else (h : t.type = .mttElse) : nest (false :: stack) t = some (true :: stack) := by
  simp only [nest, h]

theorem nest_endif (h : t.type = .mttEndif) (b : Bool) : nest (b :: stack) t = some stack := by
  simp only [nest, h]

end Nest

theorem foldlM_nest_part {x s : Token} (hs : s.type = .mttSch) (parts : Parts) (stack : List Bool) :
    (Parts.tokens ((x, s) :: parts)).foldlM nest stack =
      (nest stack x).bind fun stack => parts.tokens.foldlM nest stack := by
  rw [Parts.tokens_cons, List.foldlM_cons]
  cases nest stack x with
  | none => rfl
  | some stack' =>
    change List.foldlM nest stack' (s :: parts.tokens) = List.foldlM nest stack' parts.tokens
    rw [List.foldlM_cons, nest_sch _ hs]
    rfl

theorem foldlM_nest_append {stack stack' : List Bool}
    (h : parts.tokens.foldlM nest stack = some stack') (parts' : Parts) :
    (Parts.tokens (parts ++ parts')).foldlM nest stack = parts'.tokens.foldlM nest stack' := by
  rw [Parts.tokens_append, List.foldlM_append, h]
  rfl

theorem Spells.foldlM_nest (h : Spells ph sch parts) (hvalid : parts.Valid) (stack : List Bool) :
    parts.tokens.foldlM nest stack = some stack := by
  induction h generalizing stack with
  | nil => rfl
  | plain hx _ _ ih
  | join hx _ _ ih =>
    rw [foldlM_nest_part (hvalid.chunk _ List.mem_cons_self), nest_ph _ hx]
    exact ih hvalid.tail stack
  | cond hx _ _ _ hy _ ihThen ih =>
    have hrest := hvalid.tail.append_right
    have hthen := ihThen hvalid.tail.append_left (false :: stack)
    rw [foldlM_nest_part (hvalid.chunk _ List.mem_cons_self), nest_if _ hx, Option.bind_some,
      foldlM_nest_append hthen, foldlM_nest_part (hrest.chunk _ List.mem_cons_self),
      nest_endif _ hy]
    exact ih hrest.tail stack
  | condElse hx _ _ _ hz _ hy _ ihThen ihElse ih =>
    have hotherwise := hvalid.tail.append_right
    have hrest := hotherwise.tail.append_right
    have hthen := ihThen hvalid.tail.append_left (false :: stack)
    have helse := ihElse hotherwise.tail.append_left (true :: stack)
    rw [foldlM_nest_part (hvalid.chunk _ List.mem_cons_self), nest_if _ hx, Option.bind_some,
      foldlM_nest_append hthen, foldlM_nest_part (hotherwise.chunk _ List.mem_cons_self),
      nest_else _ hz, Option.bind_some, foldlM_nest_append helse,
      foldlM_nest_part (hrest.chunk _ List.mem_cons_self), nest_endif _ hy]
    exact ih hrest.tail stack

@[simp] theorem dropEmptyElse_sch (text : Str) (rest : List Item) :
    dropEmptyElse (.sch text :: rest) = .sch text :: dropEmptyElse rest :=
  rfl

@[simp] theorem dropEmptyElse_ph (name : Str) (sep : Option Str) (rest : List Item) :
    dropEmptyElse (.ph name sep :: rest) = .ph name sep :: dropEmptyElse rest :=
  rfl

@[simp] theorem dropEmptyElse_cond (name : Str) (isConcat : Bool) (rest : List Item) :
    dropEmptyElse (.cond name isConcat :: rest) = .cond name isConcat :: dropEmptyElse rest :=
  rfl

@[simp] theorem dropEmptyElse_endif (rest : List Item) :
    dropEmptyElse (.endif :: rest) = .endif :: dropEmptyElse rest :=
  rfl

section Item

variable {t : Token}

theorem item_sch (h : t.type = .mttSch) : t.item = some (.sch t.text) := by
  simp only [Token.item, h]

variable {name : Str}

theorem item_ph {sep : Option Str} (h : t.type = .mttPh)
    (hread : readPlaceholder t.text = some (name, sep)) :
    t.item = some (.ph name sep) := by
  simp only [Token.item, h, hread, Option.map_some]

theorem item_if {isConcat : Bool} (h : t.type = .mttIf)
    (hread : readCondExpr t.text = (name, isConcat)) (hname : nameIsBad name = false) :
    t.item = some (.cond name isConcat) := by
  simp only [Token.item, h, hread, hname, Bool.false_eq_true, if_false]

theorem item_else (h : t.type = .mttElse) : t.item = some .otherwise := by
  simp only [Token.item, h]

theorem item_endif (h : t.type = .mttEndif) : t.item = some .endif := by
  simp only [Token.item, h]

end Item

def Parts.items (parts : Parts) : List Item :=
  parts.tokens.filterMap Token.item

theorem Parts.items_cons {x s : Token} {item : Item} (hvalid : Parts.Valid ((x, s) :: parts))
    (hx : x.item = some item) :
    Parts.items ((x, s) :: parts) = item :: .sch s.text :: parts.items := by
  have hs := item_sch (hvalid.chunk _ List.mem_cons_self)
  rw [items, tokens_cons, List.filterMap_cons, hx, List.filterMap_cons, hs]
  rfl

@[simp] theorem Parts.items_append (parts parts' : Parts) :
    Parts.items (parts ++ parts') = parts.items ++ parts'.items := by
  rw [items, tokens_append, List.filterMap_append]
  rfl

/-- An "else" with only an empty string before its "endif" is left out, and any other stays. -/
theorem dropEmptyElse_otherwise
    (h : Spells ph sch parts) (hvalid : parts.Valid) (text : Str) (ys : List Item) :
    dropEmptyElse (.otherwise :: .sch text :: (parts.items ++ .endif :: ys)) =
      if text :: sch = [[]] ∧ ph = .nil then .endif :: dropEmptyElse ys
      else .otherwise :: .sch text :: dropEmptyElse (parts.items ++ .endif :: ys) := by
  have hkeep : ∀ {item : Item} {rest : List Item}, item ≠ .endif →
      dropEmptyElse (.otherwise :: .sch text :: item :: rest) =
        .otherwise :: .sch text :: dropEmptyElse (item :: rest) := by
    intro item rest hitem
    rw [dropEmptyElse, dropEmptyElse_sch]
    rintro rest' - heq
    cases heq
    exact hitem rfl
  cases h with
  | nil =>
    cases text with
    | nil =>
      rw [if_pos ⟨rfl, rfl⟩]
      rfl
    | cons c text =>
      rw [if_neg fun h => absurd h.1 nofun]
      rfl
  | plain hx hread _
  | join hx hread _ =>
    rw [if_neg fun h => absurd h.2 nofun, Parts.items_cons hvalid (item_ph hx hread)]
    exact hkeep nofun
  | cond hx hread hname _ _ _
  | condElse hx hread hname _ _ _ _ _ =>
    rw [if_neg fun h => absurd h.2 nofun, Parts.items_cons hvalid (item_if hx hread hname)]
    exact hkeep nofun

/-- The tokens of placeholders give the items of these placeholders, whatever follows them. -/
theorem Spells.dropEmptyElse_items
    (h : Spells ph sch parts) (hvalid : parts.Valid) (ys : List Item) :
    dropEmptyElse (parts.items ++ ys) = ph.items sch ++ dropEmptyElse ys := by
  induction h generalizing ys with
  | nil => rfl
  | plain hx hread _ ih
  | join hx hread _ ih =>
    have hrest := ih hvalid.tail ys
    rw [Parts.items_cons hvalid (item_ph hx hread), Placeholders.items]
    simp only [List.cons_append, dropEmptyElse_ph, dropEmptyElse_sch, hrest, List.headD_cons,
      List.tail_cons]
  | cond hx hread hname _ hy _ ihThen ih =>
    have hendif := hvalid.tail.append_right
    have hthen := ihThen hvalid.tail.append_left
    have hrest := ih hendif.tail ys
    rw [Parts.items_cons hvalid (item_if hx hread hname), Parts.items_append,
      Parts.items_cons hendif (item_endif hy), Placeholders.items, if_pos ⟨rfl, rfl⟩]
    simp only [List.cons_append, List.append_assoc, List.nil_append, dropEmptyElse_cond,
      dropEmptyElse_sch, hthen, dropEmptyElse_endif, hrest, List.headD_cons, List.tail_cons]
  | condElse hx hread hname _ hz helse hy _ ihThen ihElse ih =>
    have hotherwise := hvalid.tail.append_right
    have hendif := hotherwise.tail.append_right
    have hthen := ihThen hvalid.tail.append_left
    have helse' := ihElse hotherwise.tail.append_left
    have hrest := ih hendif.tail ys
    rw [Parts.items_cons hvalid (item_if hx hread hname), Parts.items_append,
      Parts.items_cons hotherwise (item_else hz), Parts.items_append,
      Parts.items_cons hendif (item_endif hy), Placeholders.items]
    simp only [List.cons_append, List.append_assoc, dropEmptyElse_cond, dropEmptyElse_sch, hthen,
      dropEmptyElse_otherwise helse hotherwise.tail.append_left]
    split_ifs with hempty
    · simp only [hrest, List.nil_append, List.headD_cons, List.tail_cons]
    · simp only [helse', dropEmptyElse_endif, dropEmptyElse_sch, hrest, List.cons_append,
        List.headD_cons, List.tail_cons]

end Parser
end MistEngine
end KedrAux
