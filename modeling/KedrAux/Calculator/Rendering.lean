import KedrAux.Calculator.ParsedExpressions

/-!
# Rendering of expressions

Texts of expressions: their tokens are separated by spaces, and there are parentheses where
the levels of the operations need them, and around any other subexpressions.  The parser of
the calculator accepts such a text, and it returns the tree of the expression.
-/

namespace KedrAux
namespace Calculator

open ErrorCodes

variable {V : Type}

@[simp] theorem isspace_iff (c : Byte) :
    isspace c = true ↔ (9 ≤ c.toNat ∧ c.toNat ≤ 13) ∨ c.toNat = 32 ∨ c.toNat = 160 := by
  simp [isspace, UInt8.le_iff_toNat_le, ← UInt8.toNat_inj, or_assoc]

@[simp] theorem isdigit_iff (c : Byte) : isdigit c = true ↔ 48 ≤ c.toNat ∧ c.toNat ≤ 57 := by
  simp [isdigit, UInt8.le_iff_toNat_le]

theorem isalpha_iff (c : Byte) :
    isalpha c = true ↔ (65 ≤ c.toNat ∧ c.toNat ≤ 90) ∨
      (192 ≤ c.toNat ∧ c.toNat ≤ 222 ∧ c.toNat ≠ 215) ∨ (97 ≤ c.toNat ∧ c.toNat ≤ 122) ∨
      (223 ≤ c.toNat ∧ c.toNat ≠ 247) := by
  simp [isalpha, isupper, islower, UInt8.le_iff_toNat_le, ← UInt8.toNat_inj, or_assoc, and_assoc]

theorem eq_iff_toNat (c d : Byte) : c = d ↔ c.toNat = d.toNat :=
  UInt8.toNat_inj.symm

def isSeparator (c : Byte) : Prop :=
  c = 32 ∨ c = 0

theorem isSeparator.toNat {c : Byte} (h : isSeparator c) : c.toNat = 32 ∨ c.toNat = 0 := by
  rcases h with rfl | rfl
  · exact Or.inl rfl
  · exact Or.inr rfl

theorem scanWhile_separator
    {p : Byte → Bool} {cs : List Byte} (hcs : ∀ c ∈ cs, p c = true) {sep : Byte}
    (hsep : p sep = false) (rest : List Byte) :
    scanWhile p (cs ++ sep :: rest) = .ok (cs, sep :: rest) := by
  induction cs with
  | nil => simp [scanWhile, hsep]
  | cons c cs ih =>
    have ih := ih fun d hd => hcs d (List.mem_cons_of_mem _ hd)
    simp [scanWhile, hcs c List.mem_cons_self, ih]

section Lexemes

variable [Semiring V]

/-- The text of a token, which is read when a separator follows. -/
structure Lexeme (names : Names V) where
  text : List Byte
  token : Token V
  isEnd : token.isEnd = false
  not_mem : 0 ∉ text
  nextToken : ∀ sep rest, isSeparator sep →
    nextToken names (text ++ sep :: rest) = .ok (token, sep :: rest)

def digitsValue (digitToValue : Byte → Nat) (base : Nat) (digits : List Byte) : Nat :=
  digits.foldl (fun value d => value * base + digitToValue d) 0

inductive IsLeaf (names : Names V) : List Byte → Token V → Prop
  | name {c : Byte} {cs : List Byte} (hc : (isalpha c || c == byte '_') = true)
      (hcs : ∀ d ∈ cs, (isalnum d || d == byte '_') = true)
      (hknown : names.token (c :: cs) ≠ .error) : IsLeaf names (c :: cs) (names.token (c :: cs))
  | decimal {d : Byte} {ds : List Byte} (hds : ∀ c, c ∈ d :: ds → isdigit c = true) :
      IsLeaf names (d :: ds)
        (.value (digitsValue (fun digit => digit.toNat - 48) 10 (d :: ds) : Nat))
  | hexadecimal {x d : Byte} {ds : List Byte} (hx : x = byte 'x' ∨ x = byte 'X')
      (hds : ∀ c, c ∈ d :: ds → isxdigit c = true) :
      IsLeaf names (byte '0' :: x :: d :: ds) (.value (digitsValue hdigitToValue 16 (d :: ds) : Nat))

theorem cast_foldl (digitToValue : Byte → Nat) (base : Nat) (digits : List Byte) (n : Nat) :
    ((digits.foldl (fun value d => value * base + digitToValue d) n : Nat) : V) =
      digits.foldl (fun value d => value * (base : V) + (digitToValue d : V)) (n : V) := by
  induction digits generalizing n with
  | nil => rfl
  | cons d digits ih =>
    rw [List.foldl_cons, List.foldl_cons, ih, Nat.cast_add, Nat.cast_mul]

variable {d sep : Byte} {ds : List Byte}

theorem parseNumber_separator {isDigit : Byte → Bool} (digitToValue : Byte → Nat) (base : Nat)
    (hds : ∀ c, c ∈ d :: ds → isDigit c = true) (hsep : isDigit sep = false) (rest : List Byte) :
    parseNumber isDigit digitToValue (base : V) (d :: ds ++ sep :: rest) =
      .ok (some ((digitsValue digitToValue base (d :: ds) : Nat), sep :: rest)) := by
  have hscan := scanWhile_separator (fun c hc => hds c (List.mem_cons_of_mem _ hc)) hsep rest
  rw [List.cons_append, parseNumber_cons digitToValue _ (hds d List.mem_cons_self) hscan,
    digitsValue, cast_foldl, List.foldl_cons]
  simp

theorem nextToken_cons (names : Names V) {c : Byte} (hc : isspace c = false) (cs : List Byte) :
    nextToken names (c :: cs) =
      if isalpha c || c == byte '_' then (do
        let (rest, nameEnd) ← scanWhile (fun c => isalnum c || c == byte '_') cs
        return (names.token (c :: rest), nameEnd))
      else if isdigit c then numberToken (c :: cs) c
      else symbolToken (c :: cs) c := by
  have hscan : scanWhile isspace (c :: cs) = .ok ([], c :: cs) := by simp [scanWhile, hc]
  rw [nextToken, hscan, ok_bind]
  rfl

theorem nextToken_name
    (names : Names V) {c : Byte} {cs : List Byte} (hc : (isalpha c || c == byte '_') = true)
    (hcs : ∀ d ∈ cs, (isalnum d || d == byte '_') = true) {sep : Byte} (hsep : isSeparator sep)
    (rest : List Byte) :
    nextToken names (c :: cs ++ sep :: rest) = .ok (names.token (c :: cs), sep :: rest) := by
  have hspace : isspace c = false := by
    rw [Bool.or_eq_true, isalpha_iff, beq_iff_eq, eq_iff_toNat] at hc
    rw [Bool.eq_false_iff, Ne, isspace_iff]
    have hunderscore : (byte '_').toNat = 95 := rfl
    omega
  have hname : (isalnum sep || sep == byte '_') = false := by
    rcases hsep with rfl | rfl <;> rfl
  have hscan := scanWhile_separator (p := fun c => isalnum c || c == byte '_') hcs hname rest
  rw [List.cons_append, nextToken_cons names hspace, if_pos hc, hscan]
  rfl

theorem nextToken_number (names : Names V) (hd : isdigit d = true) (cs : List Byte) :
    nextToken names (d :: cs) = numberToken (d :: cs) d := by
  have hnat := (isdigit_iff d).mp hd
  have hspace : isspace d = false := by
    rw [Bool.eq_false_iff, Ne, isspace_iff]
    omega
  have hname : ¬ (isalpha d || d == byte '_') = true := by
    rw [Bool.or_eq_true, isalpha_iff, beq_iff_eq, eq_iff_toNat]
    have hunderscore : (byte '_').toNat = 95 := rfl
    omega
  rw [nextToken_cons names hspace, if_neg hname, if_pos hd]

theorem numberToken_hexadecimal {x : Byte} (hx : x = byte 'x' ∨ x = byte 'X') (cs : List Byte) :
    (numberToken (byte '0' :: x :: cs) (byte '0') : Except Fault (Token V × List Byte)) = (do
      return valueToken (byte '0' :: x :: cs) (← parseNumber16 cs)) := by
  have htest : (x == byte 'x' || x == byte 'X') = true := by simpa using hx
  simp only [numberToken, beq_self_eq_true, if_true, List.tail_cons, readChar, ok_bind, htest]

theorem numberToken_decimal
    {c x : Byte} (hx : c = byte '0' → x ≠ byte 'x' ∧ x ≠ byte 'X') (cs : List Byte) :
    (numberToken (c :: x :: cs) c : Except Fault (Token V × List Byte)) = (do
      return valueToken (c :: x :: cs) (← parseNumber10 (c :: x :: cs))) := by
  by_cases hc : c = byte '0'
  · have htest : (x == byte 'x' || x == byte 'X') = false := by simpa using hx hc
    subst hc
    simp only [numberToken, beq_self_eq_true, if_true, List.tail_cons, readChar, ok_bind, htest,
      Bool.false_eq_true, if_false]
  · have htest : (c == byte '0') = false := by simpa using hc
    simp only [numberToken, htest, Bool.false_eq_true, if_false]

theorem nextToken_decimal (names : Names V) (hds : ∀ c, c ∈ d :: ds → isdigit c = true)
    (hsep : isSeparator sep) (rest : List Byte) :
    nextToken names (d :: ds ++ sep :: rest) =
      .ok (.value (digitsValue (fun digit => digit.toNat - 48) 10 (d :: ds) : Nat), sep :: rest) := by
  have hd := hds d List.mem_cons_self
  have hdigit : isdigit sep = false := by
    rcases hsep with rfl | rfl <;> rfl
  have hnumber := parseNumber_separator (V := V) (fun digit => digit.toNat - 48) 10 hds hdigit rest
  -- the second character is a digit or a separator, and not 'x'
  obtain ⟨x, cs, hcons, hx⟩ : ∃ x cs, ds ++ sep :: rest = x :: cs ∧
      x ≠ byte 'x' ∧ x ≠ byte 'X' := by
    have hlower : (byte 'x').toNat = 120 := rfl
    have hupper : (byte 'X').toNat = 88 := rfl
    cases ds with
    | nil =>
      have hnat := hsep.toNat
      refine ⟨sep, rest, rfl, ?_⟩
      rw [Ne, Ne, eq_iff_toNat, eq_iff_toNat]
      omega
    | cons e es =>
      have hnat := (isdigit_iff e).mp (hds e (List.mem_cons_of_mem _ List.mem_cons_self))
      refine ⟨e, es ++ sep :: rest, rfl, ?_⟩
      rw [Ne, Ne, eq_iff_toNat, eq_iff_toNat]
      omega
  rw [List.cons_append, hcons] at hnumber ⊢
  rw [nextToken_number names hd, numberToken_decimal (fun _ => hx), parseNumber10,
    ← Nat.cast_ofNat (R := V) (n := 10), hnumber]
  rfl

theorem nextToken_hexadecimal
    (names : Names V) {x d : Byte} {ds : List Byte} (hx : x = byte 'x' ∨ x = byte 'X')
    (hds : ∀ c, c ∈ d :: ds → isxdigit c = true) {sep : Byte} (hsep : isSeparator sep)
    (rest : List Byte) :
    nextToken names (byte '0' :: x :: d :: ds ++ sep :: rest) =
      .ok (.value (digitsValue hdigitToValue 16 (d :: ds) : Nat), sep :: rest) := by
  have hdigit : isxdigit sep = false := by
    rcases hsep with rfl | rfl <;> rfl
  have hnumber := parseNumber_separator (V := V) hdigitToValue 16 hds hdigit rest
  rw [List.cons_append, List.cons_append, nextToken_number names rfl, numberToken_hexadecimal hx,
    parseNumber16, ← Nat.cast_ofNat (R := V) (n := 16), hnumber]
  rfl

end Lexemes

def BinaryType.text : BinaryType → List Char
  | .multiply => ['*']
  | .divide => ['/']
  | .rest => ['%']
  | .plus => ['+']
  | .minus => ['-']
  | .leftShift => ['<', '<']
  | .rightShift => ['>', '>']
  | .less => ['<']
  | .greater => ['>']
  | .lessEqual => ['<', '=']
  | .greaterEqual => ['>', '=']
  | .equal => ['=']
  | .inequal => ['!', '=']
  | .binaryAnd => ['&']
  | .binaryXor => ['^']
  | .binaryOr => ['|']
  | .logicalAnd => ['&', '&']
  | .logicalOr => ['|', '|']

/-- The token and the text of an operation with one operand. -/
def UnaryType.token : UnaryType → Token V
  | .unaryPlus => .operation .plus
  | .unaryMinus => .operation .minus
  | .binaryNot => .binaryNot
  | .logicalNot => .logicalNot

def UnaryType.text : UnaryType → List Char
  | .unaryPlus => ['+']
  | .unaryMinus => ['-']
  | .binaryNot => ['~']
  | .logicalNot => ['!']

theorem UnaryType.unaryType_token (type : UnaryType) :
    (type.token : Token V).unaryType = some type := by
  cases type <;> rfl

section Texts

variable [Semiring V] (names : Names V)

def BinaryType.lexeme (type : BinaryType) : Lexeme names where
  text := type.text.map byte
  token := .operation type
  isEnd := rfl
  not_mem := by cases type <;> decide
  nextToken := by
    rintro sep rest (rfl | rfl)
    · cases type <;> rfl
    · cases type <;> rfl

def UnaryType.lexeme (type : UnaryType) : Lexeme names where
  text := type.text.map byte
  token := type.token
  isEnd := by cases type <;> rfl
  not_mem := by cases type <;> decide
  nextToken := by
    rintro sep rest (rfl | rfl)
    · cases type <;> rfl
    · cases type <;> rfl

/-- Parentheses and the parts of a condition. -/
def symbolLexeme (c : Char) (token : Token V) (hzero : 0 ∉ [byte c]) (hend : token.isEnd = false)
    (hnext : ∀ rest, nextToken names (byte c :: rest) = .ok (token, rest)) : Lexeme names where
  text := [byte c]
  token := token
  isEnd := hend
  not_mem := hzero
  nextToken := fun _ _ _ => hnext _

def openLexeme : Lexeme names :=
  symbolLexeme names '(' .openParenthesis (by decide) rfl fun _ => rfl

def closeLexeme : Lexeme names :=
  symbolLexeme names ')' .closeParenthesis (by decide) rfl fun _ => rfl

def condFirstLexeme : Lexeme names :=
  symbolLexeme names '?' .condFirst (by decide) rfl fun _ => rfl

def condSecondLexeme : Lexeme names :=
  symbolLexeme names ':' .condSecond (by decide) rfl fun _ => rfl

/-- A leaf of an expression: a known name or a number, with its essence. -/
structure Leaf where
  text : List Byte
  token : Token V
  essence : Essence V
  isLeaf : IsLeaf names text token
  leaf : token.leaf = some essence

variable {names}

theorem IsLeaf.not_mem {text : List Byte} {token : Token V} (h : IsLeaf names text token) :
    0 ∉ text := by
  intro hmem
  cases h with
  | name hc hcs hknown =>
    rcases List.mem_cons.mp hmem with rfl | hmem
    · exact absurd hc (by decide)
    · exact absurd (hcs 0 hmem) (by decide)
  | decimal hds => exact absurd (hds 0 hmem) (by decide)
  | hexadecimal hx hds =>
    rcases List.mem_cons.mp hmem with heq | hmem
    · exact absurd heq (by decide)
    · rcases List.mem_cons.mp hmem with rfl | hmem
      · exact absurd hx (by decide)
      · exact absurd (hds 0 hmem) (by decide)

def Leaf.lexeme (l : Leaf names) : Lexeme names where
  text := l.text
  token := l.token
  isEnd := by
    have hleaf := l.leaf
    cases htoken : l.token with
    | error => rw [htoken] at hleaf; cases hleaf
    | eof => rw [htoken] at hleaf; cases hleaf
    | _ => rfl
  not_mem := l.isLeaf.not_mem
  nextToken := by
    intro sep rest hsep
    obtain ⟨text, token, essence, isLeaf, leaf⟩ := l
    cases isLeaf with
    | name hc hcs hknown => exact nextToken_name names hc hcs hsep rest
    | decimal hds => exact nextToken_decimal names hds hsep rest
    | hexadecimal hx hds => exact nextToken_hexadecimal names hx hds hsep rest

def spaced : List (List Byte) → List Byte
  | [] => []
  | [text] => text
  | text :: texts => text ++ byte ' ' :: spaced texts

theorem not_mem_spaced {texts : List (List Byte)} (h : ∀ text ∈ texts, 0 ∉ text) :
    0 ∉ spaced texts := by
  fun_induction spaced texts with
  | case1 => exact List.not_mem_nil
  | case2 text => exact h text List.mem_cons_self
  | case3 text texts _ ih =>
    have ih := ih fun text' htext' => h text' (List.mem_cons_of_mem _ htext')
    rw [List.mem_append, List.mem_cons, not_or, not_or]
    exact ⟨h text List.mem_cons_self, by decide, ih⟩

theorem nextToken_space (expr : List Byte) :
    nextToken names (byte ' ' :: expr) = nextToken names expr := by
  have hspace : isspace (byte ' ') = true := rfl
  rw [nextToken, nextToken, scanWhile, if_pos hspace]
  cases scanWhile isspace expr <;> rfl

variable {expr : List Byte} {level : Nat}

theorem Upcoming.space {tokens : List (Token V)} (h : Upcoming names expr tokens) :
    Upcoming names (byte ' ' :: expr) tokens := by
  cases h with
  | last h hend => exact .last (by rwa [nextToken_space]) hend
  | cons h hend hrest => exact .cons (by rwa [nextToken_space]) hend hrest

theorem Upcoming.unique {tokens tokens' : List (Token V)} (h : Upcoming names expr tokens)
    (h' : Upcoming names expr tokens') :
    tokens = tokens' := by
  induction h generalizing tokens' with
  | last h hend =>
    cases h' with
    | last h' hend' =>
      rw [h] at h'
      cases h'
      rfl
    | cons h' hend' hrest' =>
      rw [h] at h'
      cases h'
      rw [hend] at hend'
      cases hend'
  | cons h hend hrest ih =>
    cases h' with
    | last h' hend' =>
      rw [h] at h'
      cases h'
      rw [hend] at hend'
      cases hend'
    | cons h' hend' hrest' =>
      rw [h] at h'
      cases h'
      rw [ih hrest']

theorem upcoming_null : Upcoming names [0] [.eof] :=
  .last (show nextToken names [0] = .ok (.eof, [0]) from rfl) rfl

theorem upcoming_spaced (lexemes : List (Lexeme names)) :
    Upcoming names (spaced (lexemes.map Lexeme.text) ++ [0])
      (lexemes.map Lexeme.token ++ [.eof]) := by
  induction lexemes with
  | nil => exact upcoming_null
  | cons l lexemes ih =>
    cases lexemes with
    | nil => exact .cons (l.nextToken 0 [] (Or.inr rfl)) l.isEnd upcoming_null
    | cons l' lexemes =>
      have hnext := l.nextToken (byte ' ')
        (spaced ((l' :: lexemes).map Lexeme.text) ++ [0]) (Or.inl rfl)
      rw [List.map_cons, List.map_cons, List.map_cons, spaced, List.append_assoc]
      · exact .cons hnext l.isEnd ih.space
      · exact List.cons_ne_nil _ _

/-- Expressions over known names and numbers, with parentheses around any subexpressions. -/
inductive Expression (names : Names V) where
  | leaf (l : Leaf names)
  | parentheses (e : Expression names)
  | unary (type : UnaryType) (op : Expression names)
  | binary (type : BinaryType) (op1 op2 : Expression names)
  | cond (op1 op2 op3 : Expression names)

/-- The tree of an expression, where parentheses are not seen. -/
def Expression.tree : Expression names → Essence V
  | .leaf l => l.essence
  | .parentheses e => e.tree
  | .unary type op => .unary type op.tree
  | .binary type op1 op2 => .binary type op1.tree op2.tree
  | .cond op1 op2 op3 => .cond op1.tree op2.tree op3.tree

/-- Removes the parentheses that were added around subexpressions. -/
def Expression.bare : Expression names → Expression names
  | .leaf l => .leaf l
  | .parentheses e => e.bare
  | .unary type op => .unary type op.bare
  | .binary type op1 op2 => .binary type op1.bare op2.bare
  | .cond op1 op2 op3 => .cond op1.bare op2.bare op3.bare

theorem Expression.tree_bare (e : Expression names) : e.bare.tree = e.tree := by
  induction e with
  | leaf l => rfl
  | parentheses e ih => rw [bare, tree, ih]
  | unary type op ih => rw [bare, tree, tree, ih]
  | binary type op1 op2 ih1 ih2 => rw [bare, tree, tree, ih1, ih2]
  | cond op1 op2 op3 ih1 ih2 ih3 => rw [bare, tree, tree, ih1, ih2, ih3]

/-- Parentheses around lexemes, when they are needed. -/
def enclose (needed : Bool) (lexemes : List (Lexeme names)) : List (Lexeme names) :=
  if needed then openLexeme names :: (lexemes ++ [closeLexeme names]) else lexemes

/-- The lexemes of an expression that stands where a level is expected: an operation of a
lower level is in parentheses.  Operations with two operands are left-associative, and
conditions are right-associative. -/
def Expression.render : Expression names → Nat → List (Lexeme names)
  | .leaf l, _ => [l.lexeme]
  | .parentheses e, _ => enclose true (e.render 0)
  | .unary type op, level =>
    enclose (decide (unaryLevel < level)) (type.lexeme names :: op.render unaryLevel)
  | .binary type op1 op2, level =>
    enclose (decide (type.level < level))
      (op1.render type.level ++ type.lexeme names :: op2.render (type.level + 1))
  | .cond op1 op2 op3, level =>
    enclose (decide (0 < level))
      (op1.render 1 ++ condFirstLexeme names ::
        (op2.render 0 ++ condSecondLexeme names :: op3.render 0))

/-- The text of an expression: its tokens are separated by spaces. -/
def Expression.text (e : Expression names) : CString where
  val := spaced ((e.render 0).map Lexeme.text)
  property := by
    refine not_mem_spaced fun text htext => ?_
    obtain ⟨l, -, rfl⟩ := List.mem_map.mp htext
    exact l.not_mem

theorem Derives.enclose {level' : Nat} {lexemes : List (Lexeme names)} {e : Essence V}
    (h : Derives level (lexemes.map Lexeme.token) e) (hlevel : level' ≤ primaryLevel) :
    Derives level' ((Calculator.enclose (decide (level < level')) lexemes).map Lexeme.token) e := by
  rw [Calculator.enclose]
  split_ifs with hneeded
  · rw [List.map_cons, List.map_append]
    exact (Derives.parentheses (h.mono (Nat.zero_le _))).mono hlevel
  · exact h.mono (by simpa using hneeded)

theorem Expression.derives (e : Expression names) (hlevel : level ≤ primaryLevel) :
    Derives level ((e.render level).map Lexeme.token) e.tree := by
  induction e generalizing level with
  | leaf l => exact (Derives.leaf l.leaf).mono hlevel
  | parentheses e ih =>
    have ih := ih (Nat.zero_le primaryLevel)
    rw [render, enclose, if_pos rfl, List.map_cons, List.map_append]
    exact (Derives.parentheses ih).mono hlevel
  | unary type op ih =>
    have ih := ih (Nat.le_succ unaryLevel)
    exact (Derives.unary (type.unaryType_token) ih).enclose hlevel
  | binary type op1 op2 ih1 ih2 =>
    have hlt := type.level_lt
    have ih1 := ih1 (hlt.le.trans (Nat.le_succ unaryLevel))
    have ih2 := ih2 (hlt.trans (Nat.lt_succ_self unaryLevel))
    refine Derives.enclose ?_ hlevel
    rw [List.map_append, List.map_cons]
    exact .binary type ih1 ih2
  | cond op1 op2 op3 ih1 ih2 ih3 =>
    have ih1 := @ih1 1 (by decide)
    have ih2 := ih2 (Nat.zero_le primaryLevel)
    have ih3 := ih3 (Nat.zero_le primaryLevel)
    refine Derives.enclose ?_ hlevel
    rw [List.map_append, List.map_cons, List.map_append, List.map_cons]
    exact .cond ih1 ih2 ih3

theorem Expression.tokens_text (e : Expression names) :
    tokens names e.text = (e.render 0).map Lexeme.token ++ [.eof] :=
  (upcoming_tokens names e.text).unique (upcoming_spaced (e.render 0))

theorem Expression.kedrCalcParse_text (e : Expression names) :
    kedrCalcParse names (fun _ => true) e.text = .ok (some e.tree) :=
  (e.derives (Nat.zero_le primaryLevel)).kedrCalcParse e.tokens_text

/-- The text of an expression is accepted, and its tree is the tree of the expression: with
parentheses only where they are needed, and with parentheses around any subexpressions. -/
theorem kedrCalcParse_render (e : Expression names) :
    kedrCalcParse names (fun _ => true) e.bare.text = .ok (some e.bare.tree) ∧
      kedrCalcParse names (fun _ => true) e.text = .ok (some e.bare.tree) := by
  refine ⟨e.bare.kedrCalcParse_text, ?_⟩
  rw [e.tree_bare]
  exact e.kedrCalcParse_text

end Texts

end Calculator
end KedrAux
