import KedrAux.Calculator.ParseData
import KedrAux.Lib.ErrorCodes

/-!
# The tokens of a string

The tokens that the parser of the calculator can read one after another, up to the end of
the string or to an error.  No token is read behind the null character, and every token but
the last one has characters of its own.
-/

namespace KedrAux
namespace Calculator

open ErrorCodes

variable {V : Type}

/-- No token can be read after it. -/
def Token.isEnd : Token V → Bool
  | .error => true
  | .eof => true
  | _ => false

inductive Terminated : List Byte → Prop
  | null : Terminated [0]
  | cons {c : Byte} {cs : List Byte} (hc : c ≠ 0) (hcs : Terminated cs) : Terminated (c :: cs)

theorem CString.terminated (s : CString) : Terminated s.chars := by
  obtain ⟨s, hs⟩ := s
  induction s with
  | nil => exact .null
  | cons c s ih =>
    rw [List.mem_cons, not_or] at hs
    exact .cons (Ne.symm hs.1) (ih hs.2)

theorem Terminated.scanWhile
    {p : Byte → Bool} {expr : List Byte} (h : Terminated expr) (hp : p 0 = false) :
    ∃ scanned rest, scanWhile p expr = .ok (scanned, rest) ∧ expr = scanned ++ rest ∧
      Terminated rest := by
  induction h with
  | null => exact ⟨[], [0], by simp [Calculator.scanWhile, hp], rfl, .null⟩
  | @cons c cs hc hcs ih =>
    cases hpc : p c with
    | false => exact ⟨[], c :: cs, by simp [Calculator.scanWhile, hpc], rfl, .cons hc hcs⟩
    | true =>
      obtain ⟨scanned, rest, hscan, heq, hrest⟩ := ih
      refine ⟨c :: scanned, rest, ?_, by rw [heq, List.cons_append], hrest⟩
      simp [Calculator.scanWhile, hpc, hscan]

variable {expr cs : List Byte} {c : Byte}

theorem Terminated.exists_cons (h : Terminated expr) :
    ∃ c cs, expr = c :: cs ∧ (c ≠ 0 → Terminated cs) := by
  cases h with
  | null => exact ⟨0, [], rfl, fun hne => absurd rfl hne⟩
  | cons hc hcs => exact ⟨_, _, rfl, fun _ => hcs⟩

/-- A result is a token of some characters of the string, or there are no more tokens. -/
def Reads (expr : List Byte) (result : Except Fault (Token V × List Byte)) : Prop :=
  ∃ token rest, result = .ok (token, rest) ∧ Terminated rest ∧
    (token.isEnd = false → rest.length < expr.length)

theorem Reads.of_tail {rest : List Byte} {token : Token V} (hrest : Terminated rest)
    (hle : rest.length ≤ cs.length) :
    Reads (c :: cs) (.ok (token, rest)) :=
  ⟨token, rest, rfl, hrest, fun _ => Nat.lt_succ_of_le hle⟩

theorem Reads.error (h : Terminated expr) : Reads expr (.ok ((.error : Token V), expr)) :=
  ⟨.error, expr, rfl, h, fun hend => by cases hend⟩

theorem resolveToken2_cons (d : Byte) (ds : List Byte) (symbol : Char) (type0 type1 : Token V) :
    resolveToken2 (d :: ds) symbol type0 type1 =
      .ok (if d = byte symbol then (type1, ds) else (type0, d :: ds)) := by
  by_cases hd : d = byte symbol
  · simp [resolveToken2, readChar, hd]
  · simp [resolveToken2, readChar, hd]

theorem resolveToken3_cons
    (d : Byte) (ds : List Byte) (symbolA symbolB : Char) (type0 type1A type1B : Token V) :
    resolveToken3 (d :: ds) symbolA symbolB type0 type1A type1B =
      .ok (if d = byte symbolA then (type1A, ds)
        else if d = byte symbolB then (type1B, ds) else (type0, d :: ds)) := by
  by_cases hd : d = byte symbolA
  · simp [resolveToken3, readChar, hd]
  · by_cases hd' : d = byte symbolB
    · simp [resolveToken3, readChar, hd']
    · simp [resolveToken3, readChar, hd, hd']

theorem reads_resolveToken2 (h : Terminated cs) {symbol : Char} (hsymbol : byte symbol ≠ 0)
    (type0 type1 : Token V) :
    Reads (c :: cs) (resolveToken2 cs symbol type0 type1) := by
  obtain ⟨d, ds, rfl, hds⟩ := h.exists_cons
  rw [resolveToken2_cons]
  split_ifs with hd
  · exact .of_tail (hds (hd ▸ hsymbol)) (Nat.le_succ _)
  · exact .of_tail h (Nat.le_refl _)

theorem reads_resolveToken3 (h : Terminated cs) {symbolA symbolB : Char}
    (hsymbolA : byte symbolA ≠ 0) (hsymbolB : byte symbolB ≠ 0) (type0 type1A type1B : Token V) :
    Reads (c :: cs) (resolveToken3 cs symbolA symbolB type0 type1A type1B) := by
  obtain ⟨d, ds, rfl, hds⟩ := h.exists_cons
  rw [resolveToken3_cons]
  split_ifs with hd hd'
  · exact .of_tail (hds (hd ▸ hsymbolA)) (Nat.le_succ _)
  · exact .of_tail (hds (hd' ▸ hsymbolB)) (Nat.le_succ _)
  · exact .of_tail h (Nat.le_refl _)

theorem Reads.append {scanned : List Byte} {result : Except Fault (Token V × List Byte)}
    (h : Reads expr result) :
    Reads (scanned ++ expr) result := by
  obtain ⟨token, rest, hresult, hrest, hlt⟩ := h
  refine ⟨token, rest, hresult, hrest, fun hend => ?_⟩
  have := hlt hend
  rw [List.length_append]
  omega

theorem reads_symbolToken (h : Terminated (c :: cs)) :
    Reads (c :: cs) (symbolToken (c :: cs) c : Except Fault (Token V × List Byte)) := by
  rw [symbolToken]
  by_cases hc : c = 0
  · rw [if_pos (by simpa using hc)]
    exact ⟨.eof, _, rfl, h, fun hend => by cases hend⟩
  · rw [if_neg (by simpa using hc)]
    obtain ⟨d, ds, heq, hcs⟩ := h.exists_cons
    cases heq
    have hcs := hcs hc
    cases (oneSymbolToken c : Option (Token V)) with
    | some token => exact .of_tail hcs (Nat.le_refl _)
    | none =>
      simp only [List.tail_cons]
      split_ifs
      · exact reads_resolveToken2 hcs (by decide) _ _
      · exact reads_resolveToken2 hcs (by decide) _ _
      · exact reads_resolveToken2 hcs (by decide) _ _
      · exact reads_resolveToken3 hcs (by decide) (by decide) _ _ _
      · exact reads_resolveToken3 hcs (by decide) (by decide) _ _ _
      · exact .error h

section Tokens

variable [Semiring V]

variable {isDigit : Byte → Bool} {c : Byte} {cs expr : List Byte} {names : Names V}
variable {data : ParseData V} {token : Token V}

theorem parseNumber_cons (digitToValue : Byte → Nat) (base : V) {digits rest : List Byte}
    (hc : isDigit c = true) (hscan : scanWhile isDigit cs = .ok (digits, rest)) :
    parseNumber isDigit digitToValue base (c :: cs) =
      .ok (some (digits.foldl (fun value d => value * base + (digitToValue d : V))
        (digitToValue c : V), rest)) := by
  simp only [parseNumber, readChar, hc, List.tail_cons, hscan, ok_bind, Bool.not_true,
    Bool.false_eq_true, if_false]
  rfl

/-- A number is read without reading behind the end of the string. -/
theorem parseNumber_cases (hzero : isDigit 0 = false) (digitToValue : Byte → Nat) (base : V)
    (h : Terminated (c :: cs)) :
    parseNumber isDigit digitToValue base (c :: cs) = .ok none ∨
      ∃ value rest, parseNumber isDigit digitToValue base (c :: cs) = .ok (some (value, rest)) ∧
        Terminated rest ∧ rest.length ≤ cs.length := by
  cases hc : isDigit c with
  | false =>
    refine Or.inl ?_
    simp only [parseNumber, readChar, hc, ok_bind, Bool.not_false, if_true]
    rfl
  | true =>
    obtain ⟨d, ds, heq, hcs⟩ := h.exists_cons
    cases heq
    have hne : c ≠ 0 := by
      rintro rfl
      rw [hzero] at hc
      cases hc
    obtain ⟨digits, rest, hscan, heq, hrest⟩ := (hcs hne).scanWhile hzero
    refine Or.inr ⟨_, rest, parseNumber_cons digitToValue base hc hscan, hrest, ?_⟩
    rw [heq, List.length_append]
    omega

theorem reads_valueToken (hzero : isDigit 0 = false) (digitToValue : Byte → Nat) (base : V)
    {number : List Byte} (hexpr : Terminated expr) (h : Terminated number)
    (hle : number.length ≤ expr.length) :
    Reads expr (do return valueToken expr (← parseNumber isDigit digitToValue base number)) := by
  obtain ⟨c, cs, rfl, -⟩ := h.exists_cons
  rcases parseNumber_cases hzero digitToValue base h with hnone | ⟨value, rest, hsome, hrest, hlen⟩
  · rw [hnone, ok_bind]
    exact .error hexpr
  · rw [hsome, ok_bind]
    refine ⟨.value value, rest, rfl, hrest, fun _ => ?_⟩
    rw [List.length_cons] at hle
    omega

theorem reads_numberToken (h : Terminated (c :: cs)) (hc : c ≠ 0) :
    Reads (c :: cs) (numberToken (c :: cs) c : Except Fault (Token V × List Byte)) := by
  have hdecimal : Reads (c :: cs)
      (do return valueToken (c :: cs) (← parseNumber10 (c :: cs)) :
        Except Fault (Token V × List Byte)) :=
    reads_valueToken (by decide) _ _ h h (Nat.le_refl _)
  rw [numberToken]
  split_ifs with hzero
  · obtain ⟨d, ds, heq, hcs⟩ := h.exists_cons
    cases heq
    have hcs := hcs hc
    obtain ⟨e, es, rfl, hes⟩ := hcs.exists_cons
    simp only [List.tail_cons, readChar, ok_bind]
    split_ifs with hhex
    · have he : e ≠ 0 := by
        rintro rfl
        exact absurd hhex (by decide)
      refine reads_valueToken (by decide) _ _ h (hes he) ?_
      simp only [List.length_cons]
      omega
    · exact hdecimal
  · exact hdecimal

theorem reads_nextToken (names : Names V) {expr : List Byte} (h : Terminated expr) :
    Reads expr (nextToken names expr) := by
  obtain ⟨spaces, expr', hspaces, rfl, h'⟩ := @Terminated.scanWhile isspace _ h (by decide)
  rw [nextToken, hspaces, ok_bind]
  obtain ⟨c, cs, rfl, hcs⟩ := h'.exists_cons
  apply Reads.append
  simp only [readChar, ok_bind, List.tail_cons]
  split_ifs with hname hdigit
  · have hc : c ≠ 0 := by
      rintro rfl
      exact absurd hname (by decide)
    obtain ⟨name, rest, hscan, heq, hrest⟩ :=
      @Terminated.scanWhile (fun c => isalnum c || c == byte '_') _ (hcs hc) (by decide)
    rw [hscan, ok_bind]
    have hle : rest.length ≤ cs.length := by
      rw [heq, List.length_append]
      omega
    exact .of_tail hrest hle
  · have hc : c ≠ 0 := by
      rintro rfl
      exact absurd hdigit (by decide)
    exact reads_numberToken h' hc
  · exact reads_symbolToken h'

/-- The tokens that are read from a pointer on, up to the first one with no token after it. -/
inductive Upcoming (names : Names V) : List Byte → List (Token V) → Prop
  | last {expr rest : List Byte} {token : Token V} (h : nextToken names expr = .ok (token, rest))
      (hend : token.isEnd = true) : Upcoming names expr [token]
  | cons {expr rest : List Byte} {token : Token V} {tokens : List (Token V)}
      (h : nextToken names expr = .ok (token, rest)) (hend : token.isEnd = false)
      (hrest : Upcoming names rest tokens) : Upcoming names expr (token :: tokens)

/-- At most so many tokens from a pointer on. -/
def tokensOf (names : Names V) : Nat → List Byte → List (Token V)
  | 0, _ => []
  | n + 1, expr =>
    match nextToken names expr with
    | .error _ => []
    | .ok (token, rest) => if token.isEnd then [token] else token :: tokensOf names n rest

def tokens (names : Names V) (s : CString) : List (Token V) :=
  tokensOf names s.chars.length s.chars

theorem upcoming_tokensOf (names : Names V) {n : Nat} (h : Terminated expr) (hn : expr.length ≤ n) :
    Upcoming names expr (tokensOf names n expr) ∧ (tokensOf names n expr).length ≤ expr.length := by
  induction n generalizing expr with
  | zero =>
    obtain ⟨c, cs, rfl, -⟩ := h.exists_cons
    exact absurd hn (Nat.not_succ_le_zero _)
  | succ n ih =>
    obtain ⟨token, rest, hnext, hrest, hlt⟩ := reads_nextToken names h
    simp only [tokensOf, hnext]
    cases hend : token.isEnd with
    | true =>
      obtain ⟨c, cs, rfl, -⟩ := h.exists_cons
      exact ⟨.last hnext hend, Nat.succ_le_succ (Nat.zero_le _)⟩
    | false =>
      have hlt := hlt hend
      obtain ⟨hupcoming, hlength⟩ := ih hrest (by omega)
      exact ⟨.cons hnext hend hupcoming, Nat.succ_le_of_lt (Nat.lt_of_le_of_lt hlength hlt)⟩

theorem upcoming_tokens (names : Names V) (s : CString) : Upcoming names s.chars (tokens names s) :=
  (upcoming_tokensOf names s.terminated (Nat.le_refl _)).1

theorem length_tokens_le (names : Names V) (s : CString) :
    (tokens names s).length ≤ s.chars.length :=
  (upcoming_tokensOf names s.terminated (Nat.le_refl _)).2

/-- The current token and those after it. -/
structure Ahead (names : Names V) (data : ParseData V) (token : Token V)
    (tokens : List (Token V)) : Prop where
  current : data.currentToken = token
  ended : token.isEnd = true → tokens = []
  upcoming : token.isEnd = false → Upcoming names data.expr tokens

theorem Upcoming.exists_cons {tokens : List (Token V)} (h : Upcoming names expr tokens) :
    ∃ token tokens', tokens = token :: tokens' := by
  cases h with
  | last => exact ⟨_, _, rfl⟩
  | cons => exact ⟨_, _, rfl⟩

theorem parseDataNextToken_eq (names : Names V) (hend : data.currentToken.isEnd = false) :
    parseDataNextToken names data = (do
      let (token, expr) ← nextToken names data.expr
      return { data with expr := expr, currentToken := token }) := by
  rw [parseDataNextToken]
  split
  · rename_i heq
    rw [heq] at hend
    cases hend
  · rename_i heq
    rw [heq] at hend
    cases hend
  · rfl

theorem parseDataNextToken_eq_bug (names : Names V) (hend : data.currentToken.isEnd = true) :
    parseDataNextToken names data = .error .bug := by
  rw [parseDataNextToken]
  split
  · rfl
  · rfl
  · rename_i herror heof
    cases hcurrent : data.currentToken with
    | error => exact absurd hcurrent herror
    | eof => exact absurd hcurrent heof
    | _ =>
      rw [hcurrent] at hend
      cases hend

theorem Ahead.nextToken {token' : Token V} {tokens : List (Token V)}
    (h : Ahead names data token (token' :: tokens)) :
    ∃ expr, parseDataNextToken names data =
        .ok { data with expr := expr, currentToken := token' } ∧
      Ahead names { data with expr := expr, currentToken := token' } token' tokens := by
  have hend : token.isEnd = false := by
    rw [Bool.eq_false_iff]
    intro hend
    cases h.ended hend
  have hnext : ∀ rest, Calculator.nextToken names data.expr = .ok (token', rest) →
      parseDataNextToken names data = .ok { data with expr := rest, currentToken := token' } := by
    intro rest hrest
    rw [parseDataNextToken_eq names (h.current ▸ hend), hrest]
    rfl
  cases h.upcoming hend with
  | @last _ rest _ hread hend' =>
    refine ⟨rest, hnext rest hread, rfl, fun _ => rfl, fun hfalse => ?_⟩
    rw [hend'] at hfalse
    cases hfalse
  | @cons _ rest _ _ hread hend' hrest =>
    refine ⟨rest, hnext rest hread, rfl, fun htrue => ?_, fun _ => hrest⟩
    rw [hend'] at htrue
    cases htrue

theorem Ahead.nextToken_nil (h : Ahead names data token []) :
    parseDataNextToken names data = .error .bug := by
  cases hend : token.isEnd with
  | false =>
    obtain ⟨_, _, heq⟩ := (h.upcoming hend).exists_cons
    cases heq
  | true =>
    exact parseDataNextToken_eq_bug names (h.current ▸ hend)

end Tokens

end Calculator
end KedrAux
