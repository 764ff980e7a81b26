import KedrAux.Calculator.Grammar

/-!
# Runs of the parser

What the parser of the calculator does with the tokens ahead.  It follows the scan of the
delimiters, so that it reads behind the end of a string exactly when the scan runs off.
When it accepts a string and no ')' was taken for ':', the tokens are an expression of the
grammar, and the parser returns its essence.
-/

namespace KedrAux
namespace Calculator

open ErrorCodes

variable {V : Type}

/-- A token at which an expression ends, when it is parsed with a priority. -/
def stops (priority : Nat) : Token V → Bool
  | .eof | .closeParenthesis | .condSecond => true
  | .operation type => priority > type.priorityLeft
  | .condFirst => priority > priorityCondLeft
  | _ => false

variable {token : Token V}

theorem eq_of_stops {priority : Nat} (h : stops priority token = true)
    (hpriority : priority ≤ priorityCondRight) :
    token = .eof ∨ token = .closeParenthesis ∨ token = .condSecond := by
  cases token with
  | eof => exact Or.inl rfl
  | closeParenthesis => exact Or.inr (Or.inl rfl)
  | condSecond => exact Or.inr (Or.inr rfl)
  | operation type =>
    have hlt : priority > type.priorityLeft := by simpa [stops] using h
    have hone : priorityCondRight = 1 := rfl
    rw [type.priorityLeft_eq] at hlt
    omega
  | condFirst =>
    have hlt : priority > priorityCondLeft := by simpa [stops] using h
    have hone : priorityCondRight = 1 := rfl
    have htwo : priorityCondLeft = 2 := rfl
    omega
  | _ => cases h

/-- An expression of a level can be the left operand of the operation. -/
structure Binds (level : Nat) (token : Token V) : Prop where
  operation : ∀ type, token = .operation type → type.level ≤ level
  condFirst : token = .condFirst → 1 ≤ level

/-- The taken tokens extend any expression before them that can be the left operand. -/
def Extends (priority : Nat) (token : Token V) (result : Essence V) (mixed : Bool)
    (taken : List (Token V)) (e : Essence V) : Prop :=
  mixed = false → ∀ level before, Derives level before result → levelOf priority ≤ level →
    Binds level token → Derives (levelOf priority) (before ++ taken) e

theorem Binds.of_delimiter {level : Nat}
    (h : token = .eof ∨ token = .closeParenthesis ∨ token = .condSecond) :
    Binds level token := by
  constructor
  · rintro type rfl
    simp at h
  · rintro rfl
    simp at h

theorem binds_of_stops {type : BinaryType} (h : stops type.priorityRight token = true) :
    Binds type.level token := by
  constructor
  · rintro type' rfl
    have hlt : type.priorityRight > type'.priorityLeft := by simpa [stops] using h
    rw [type.priorityRight_eq, type'.priorityLeft_eq] at hlt
    omega
  · exact fun _ => type.level_pos

theorem createEssence_cases (alloc : Nat → Bool) (data : ParseData V) (e : Essence V) :
    (alloc data.kmallocs = true ∧ createEssence alloc data e =
      (some e, { data with kmallocs := data.kmallocs + 1 })) ∨
    (alloc data.kmallocs = false ∧ createEssence alloc data e =
      (none, { data with kmallocs := data.kmallocs + 1 })) := by
  cases halloc : alloc data.kmallocs with
  | true => exact Or.inl ⟨rfl, by simp [createEssence, halloc]⟩
  | false => exact Or.inr ⟨rfl, by simp [createEssence, halloc]⟩

section Runs

variable [Semiring V] (names : Names V) (alloc : Nat → Bool)

/--
What a function of the parser gives for the tokens ahead: some of them are taken for an
essence, or they are not an expression, or it reads behind the end.
-/
inductive Parsed (position : Position) (Stops : Token V → Prop) (tokens : List (Token V))
    (D : Bool → List (Token V) → Essence V → Prop) :
    Except Fault (Option (Essence V) × ParseData V) → Prop
  | some (taken : List (Token V)) (mixed : Bool) {rest : List (Token V)} {token : Token V}
      {e : Essence V} {data : ParseData V} (htokens : tokens = taken ++ token :: rest)
      (hahead : Ahead names data token rest) (hstops : Stops token)
      (hscan : ∀ delimiters m, scan position delimiters m tokens =
        scan .operation delimiters (m || mixed) (token :: rest))
      (hderives : D mixed taken e) :
      Parsed position Stops tokens D (.ok (some e, data))
  | none {data : ParseData V}
      (hscan : (∀ i, alloc i = true) → ∀ delimiters m, scan position delimiters m tokens = .rejects) :
      Parsed position Stops tokens D (.ok (none, data))
  | bug (hscan : ∀ delimiters m, scan position delimiters m tokens = .runsOff) :
      Parsed position Stops tokens D (.error .bug)

variable {names alloc}

variable {data : ParseData V} {tokens : List (Token V)}

theorem Ahead.with_kmallocs (h : Ahead names data token tokens) (kmallocs : Nat) :
    Ahead names { data with kmallocs := kmallocs } token tokens :=
  ⟨h.current, h.ended, h.upcoming⟩

theorem Parsed.of_alloc {position : Position} {Stops : Token V → Prop}
    {D : Bool → List (Token V) → Essence V → Prop} {i : Nat} (halloc : alloc i = false) :
    Parsed names alloc position Stops tokens D (.ok (Option.none, data)) := by
  refine .none fun hall => ?_
  rw [hall i] at halloc
  cases halloc

variable {fuel : Nat}

section Operand

theorem parseOperand_leaf
    {e : Essence V} (hcurrent : data.currentToken = token) (h : token.leaf = some e) :
    parseOperand names alloc (fuel + 1) data = parseLeaf names alloc data e := by
  rw [parseOperand, hcurrent]
  cases token with
  | value => cases h; rfl
  | constant => cases h; rfl
  | var => cases h; rfl
  | weakVar => cases h; rfl
  | _ => cases h

theorem parseOperand_unary
    {type : UnaryType} (hcurrent : data.currentToken = token) (h : token.unaryType = some type) :
    parseOperand names alloc (fuel + 1) data = (do
      return unaryOp alloc type (← parseDataParse names alloc fuel data type.priority)) := by
  rw [parseOperand, hcurrent]
  cases token with
  | operation type =>
    cases type with
    | plus => cases h; rfl
    | minus => cases h; rfl
    | _ => cases h
  | logicalNot => cases h; rfl
  | binaryNot => cases h; rfl
  | _ => cases h

theorem parseOperand_open (hcurrent : data.currentToken = .openParenthesis) :
    parseOperand names alloc (fuel + 1) data = (do
      closeParenthesis names (← parseDataParse names alloc fuel data priorityMin)) := by
  rw [parseOperand, hcurrent]

theorem parseOperand_other (hcurrent : data.currentToken = token) (hleaf : token.leaf = none)
    (hunary : token.unaryType = none) (hopen : token ≠ .openParenthesis) :
    parseOperand names alloc (fuel + 1) data = .ok (none, data) := by
  rw [parseOperand, hcurrent]
  cases token with
  | operation type =>
    cases type with
    | plus => cases hunary
    | minus => cases hunary
    | _ => rfl
  | openParenthesis => exact absurd rfl hopen
  | value => cases hleaf
  | constant => cases hleaf
  | var => cases hleaf
  | weakVar => cases hleaf
  | logicalNot => cases hunary
  | binaryNot => cases hunary
  | _ => rfl

end Operand

section Good

variable (names alloc)

/-- `parse_data_parse` follows the scan from an operand on. -/
def ParseGood (fuel : Nat) : Prop :=
  ∀ data token tokens priority, Ahead names data token tokens → tokens ≠ [] →
    2 * tokens.length ≤ fuel →
    Parsed names alloc .operand (fun token => stops priority token = true) tokens
      (fun mixed taken e => mixed = false → Derives (levelOf priority) taken e)
      (parseDataParse names alloc fuel data priority)

/-- At least one token is taken for an operand. -/
def OperandGood (fuel : Nat) : Prop :=
  ∀ data token tokens, Ahead names data token tokens → 2 * tokens.length + 1 ≤ fuel →
    Parsed names alloc .operand (fun _ => True) (token :: tokens)
      (fun mixed taken e => taken ≠ [] ∧ (mixed = false → Derives unaryLevel taken e))
      (parseOperand names alloc fuel data)

/-- The loop follows the scan from an operation on, with an expression before it. -/
def OperationsGood (fuel : Nat) : Prop :=
  ∀ data token tokens priority result, Ahead names data token tokens →
    2 * tokens.length + 1 ≤ fuel →
    Parsed names alloc .operation (fun token => stops priority token = true) (token :: tokens)
      (Extends priority token result)
      (parseOperations names alloc fuel data priority result)

end Good

theorem Parsed.of_scan {position position' : Position} {Stops : Token V → Prop}
    (before : List (Token V)) {tokens' : List (Token V)} (mixed : Bool)
    {D D' : Bool → List (Token V) → Essence V → Prop}
    {result : Except Fault (Option (Essence V) × ParseData V)}
    (h : Parsed names alloc position' Stops tokens' D' result)
    (htokens : tokens = before ++ tokens')
    (hscan : ∀ delimiters m, scan position delimiters m tokens =
      scan position' delimiters (m || mixed) tokens')
    (hD : ∀ mixed' taken e, D' mixed' taken e → D (mixed || mixed') (before ++ taken) e) :
    Parsed names alloc position Stops tokens D result := by
  cases h with
  | none hscan' =>
    refine .none fun hall delimiters m => ?_
    rw [hscan, hscan' hall]
  | bug hscan' =>
    refine .bug fun delimiters m => ?_
    rw [hscan, hscan']
  | some taken mixed' htokens' hahead hstops hscan' hderives =>
    refine .some (before ++ taken) (mixed || mixed') ?_ hahead hstops ?_ (hD _ _ _ hderives)
    · rw [htokens, htokens', List.append_assoc]
    · intro delimiters m
      rw [hscan, hscan', Bool.or_assoc]

theorem parseGood_succ (hoperand : OperandGood names alloc fuel)
    (hoperations : OperationsGood names alloc fuel) :
    ParseGood names alloc (fuel + 1) := by
  intro data token tokens priority hahead hne hfuel
  obtain ⟨token1, tokens1, rfl⟩ := List.exists_cons_of_ne_nil hne
  obtain ⟨expr, hnext, hahead1⟩ := hahead.nextToken
  rw [List.length_cons] at hfuel
  rw [parseDataParse, hnext, ok_bind]
  have hgood := hoperand _ _ _ hahead1 (by omega)
  generalize parseOperand names alloc fuel _ = result at hgood
  cases hgood with
  | none hscan => exact .none hscan
  | bug hscan => exact .bug hscan
  | @some taken mixed rest token2 e data2 htokens hahead2 _ hscan hderives =>
    obtain ⟨htaken, hderives⟩ := hderives
    have hlength := congrArg List.length htokens
    have hpos := List.length_pos_of_ne_nil htaken
    rw [List.length_cons, List.length_append, List.length_cons] at hlength
    rw [ok_bind]
    have hgood := hoperations data2 token2 rest priority e hahead2 (by omega)
    refine hgood.of_scan taken mixed htokens hscan ?_
    intro mixed2 taken2 e2 hextends hmixed
    rw [Bool.or_eq_false_iff] at hmixed
    refine hextends hmixed.2 unaryLevel taken (hderives hmixed.1) (levelOf_le priority) ?_
    exact ⟨fun type _ => type.level_lt.le, fun _ => by decide⟩

theorem parsed_leaf {e : Essence V} (hahead : Ahead names data token tokens)
    (hleaf : token.leaf = some e) :
    Parsed names alloc .operand (fun _ => True) (token :: tokens)
      (fun mixed taken e => taken ≠ [] ∧ (mixed = false → Derives unaryLevel taken e))
      (parseLeaf names alloc data e) := by
  have hend : token.isEnd = false := by
    cases token with
    | error => cases hleaf
    | eof => cases hleaf
    | _ => rfl
  obtain ⟨token1, tokens1, rfl⟩ := (hahead.upcoming hend).exists_cons
  rcases createEssence_cases alloc data e with ⟨-, hcreate⟩ | ⟨halloc, hcreate⟩
  · obtain ⟨expr, hnext, hahead1⟩ := (hahead.with_kmallocs (data.kmallocs + 1)).nextToken
    simp only [parseLeaf, hcreate, hnext, ok_bind]
    refine .some [token] false rfl hahead1 trivial ?_ ⟨List.cons_ne_nil _ _, fun _ => ?_⟩
    · intro delimiters m
      rw [scan_leaf delimiters m _ hleaf, Bool.or_false]
    · exact (Derives.leaf hleaf).up
  · simp only [parseLeaf, hcreate]
    exact .of_alloc halloc

theorem operandGood_succ (hparse : ParseGood names alloc fuel) :
    OperandGood names alloc (fuel + 1) := by
  intro data token tokens hahead hfuel
  cases hleaf : token.leaf with
  | some e =>
    rw [parseOperand_leaf hahead.current hleaf]
    exact parsed_leaf hahead hleaf
  | none =>
    cases hunary : token.unaryType with
    | some type =>
      have hend : token.isEnd = false := by
        cases token with
        | error => cases hunary
        | eof => cases hunary
        | _ => rfl
      obtain ⟨token1, tokens1, htokens1⟩ := (hahead.upcoming hend).exists_cons
      rw [parseOperand_unary hahead.current hunary]
      have hgood := hparse data token tokens type.priority hahead (by simp [htokens1]) (by omega)
      generalize parseDataParse names alloc fuel data type.priority = result at hgood
      cases hgood with
      | none hscan =>
        refine .none fun hall delimiters m => ?_
        rw [scan_unary _ _ _ hunary, hscan hall]
      | bug hscan =>
        refine .bug fun delimiters m => ?_
        rw [scan_unary _ _ _ hunary, hscan]
      | @some taken mixed rest token2 e data2 htokens hahead2 _ hscan hderives =>
        rw [ok_bind]
        simp only [unaryOp]
        rcases createEssence_cases alloc data2 (.unary type e) with
          ⟨-, hcreate⟩ | ⟨halloc, hcreate⟩
        · rw [hcreate]
          refine .some (token :: taken) mixed (by rw [htokens, List.cons_append])
            (hahead2.with_kmallocs _) trivial ?_ ⟨List.cons_ne_nil _ _, fun hmixed => ?_⟩
          · intro delimiters m
            rw [scan_unary _ _ _ hunary, hscan]
          · have hderived := hderives hmixed
            rw [levelOf_priority] at hderived
            exact .unary hunary hderived
        · rw [hcreate]
          exact .of_alloc halloc
    | none =>
      by_cases hopen : token = .openParenthesis
      · subst hopen
        obtain ⟨token1, tokens1, htokens1⟩ := (hahead.upcoming rfl).exists_cons
        rw [parseOperand_open hahead.current]
        have hgood := hparse data _ tokens priorityMin hahead (by simp [htokens1]) (by omega)
        generalize parseDataParse names alloc fuel data priorityMin = result at hgood
        cases hgood with
        | none hscan =>
          refine .none fun hall delimiters m => ?_
          rw [scan, hscan hall]
        | bug hscan =>
          refine .bug fun delimiters m => ?_
          rw [scan, hscan]
        | @some taken mixed rest token2 e data2 htokens hahead2 hstops hscan hderives =>
          rw [ok_bind, closeParenthesis, hahead2.current]
          rcases eq_of_stops hstops (Nat.zero_le _) with rfl | rfl | rfl
          · refine .none fun hall delimiters m => ?_
            rw [scan, hscan]
            rfl
          · -- the parenthesis is closed
            obtain ⟨token3, tokens3, rfl⟩ := (hahead2.upcoming rfl).exists_cons
            obtain ⟨expr, hnext, hahead3⟩ := hahead2.nextToken
            simp only [hnext, ok_bind]
            refine .some (.openParenthesis :: (taken ++ [.closeParenthesis])) mixed ?_ hahead3
              trivial ?_ ⟨List.cons_ne_nil _ _, fun hmixed => ?_⟩
            · rw [htokens]
              simp
            · intro delimiters m
              rw [scan, hscan, scan]
            · exact (Derives.parentheses (hderives hmixed)).up
          · refine .none fun hall delimiters m => ?_
            rw [scan, hscan]
            rfl
      · rw [parseOperand_other hahead.current hleaf hunary hopen]
        exact .none fun _ delimiters m => scan_other delimiters m tokens hleaf hunary hopen

theorem parsed_stops {priority : Nat} (result : Essence V) (hahead : Ahead names data token tokens)
    (hstops : stops priority token = true) :
    Parsed names alloc .operation (fun token => stops priority token = true) (token :: tokens)
      (Extends priority token result)
      (.ok (some result, data)) := by
  refine .some [] false rfl hahead hstops ?_ fun _ level before hbefore hlevel _ => ?_
  · intro delimiters m
    rw [Bool.or_false]
  · rw [List.append_nil]
    exact hbefore.mono hlevel

section Operations

variable (hparse : ParseGood names alloc fuel)
variable (hoperations : OperationsGood names alloc fuel)

include hparse hoperations

variable {priority : Nat} {result : Essence V}

theorem parsed_operation {type : BinaryType} (hahead : Ahead names data (.operation type) tokens)
    (hfuel : 2 * tokens.length + 1 ≤ fuel + 1) :
    Parsed names alloc .operation (fun token => stops priority token = true)
      (.operation type :: tokens)
      (Extends priority (.operation type) result)
      (parseOperations names alloc (fuel + 1) data priority result) := by
  rw [parseOperations, hahead.current]
  simp only
  split_ifs with hpriority
  · exact parsed_stops result hahead (by simpa [stops] using hpriority)
  · obtain ⟨token1, tokens1, htokens1⟩ := (hahead.upcoming rfl).exists_cons
    have hgood := hparse data _ tokens type.priorityRight hahead (by simp [htokens1]) (by omega)
    generalize parseDataParse names alloc fuel data type.priorityRight = result1 at hgood
    have hscan0 : ∀ delimiters m, scan .operation delimiters m (.operation type :: tokens) =
        scan .operand delimiters m tokens := by
      intro delimiters m
      rw [scan]
    cases hgood with
    | none hscan =>
      refine .none fun hall delimiters m => ?_
      rw [hscan0, hscan hall]
    | bug hscan =>
      refine .bug fun delimiters m => ?_
      rw [hscan0, hscan]
    | @some taken mixed rest token2 op2 data2 htokens hahead2 hstops hscan hderives =>
      rw [ok_bind]
      simp only
      rcases createEssence_cases alloc data2 (.binary type result op2) with
        ⟨-, hcreate⟩ | ⟨halloc, hcreate⟩
      · rw [hcreate]
        have hlength : tokens.length = taken.length + (rest.length + 1) := by
          rw [htokens, List.length_append, List.length_cons]
        have hgood2 := hoperations _ token2 rest priority (.binary type result op2)
          (hahead2.with_kmallocs (data2.kmallocs + 1)) (by omega)
        refine hgood2.of_scan (.operation type :: taken) mixed
          (by rw [htokens, List.cons_append]) ?_ ?_
        · intro delimiters m
          rw [hscan0, hscan]
        · intro mixed' taken2 e hrest hmixed level before hbefore hlevel hbinds
          rw [Bool.or_eq_false_iff] at hmixed
          have hright := hderives hmixed.1
          rw [levelOf_priorityRight] at hright
          have hleft := hbefore.mono (hbinds.operation type rfl)
          have hbinary := Derives.binary type hleft hright
          have hwhole := hrest hmixed.2 type.level _ hbinary (levelOf_le_level hpriority)
            (binds_of_stops hstops)
          rwa [List.append_assoc] at hwhole
      · rw [hcreate]
        exact .of_alloc halloc

omit hoperations in
theorem parsed_third {token : Token V} (hahead : Ahead names data token tokens)
    (hstops : stops priorityMin token = true) (hfuel : 2 * tokens.length ≤ fuel) (hpos : 0 < fuel) :
    (token = .eof ∧ parseDataParse names alloc fuel data priorityCondRight = .error .bug) ∨
    (∃ mixed, (mixed = false → token = .condSecond) ∧
      (∀ delimiters m, scan .operation (.cond :: delimiters) m (token :: tokens) =
        scan .operand delimiters (m || mixed) tokens) ∧
      Parsed names alloc .operand (fun token => stops priorityCondRight token = true) tokens
        (fun mixed taken e => mixed = false → Derives 0 taken e)
        (parseDataParse names alloc fuel data priorityCondRight)) := by
  rcases eq_of_stops hstops (Nat.zero_le _) with rfl | rfl | rfl
  · refine Or.inl ⟨rfl, ?_⟩
    obtain ⟨fuel, rfl⟩ := Nat.exists_eq_succ_of_ne_zero hpos.ne'
    have hnil := hahead.ended rfl
    subst hnil
    rw [parseDataParse, hahead.nextToken_nil]
    rfl
  · obtain ⟨token1, tokens1, htokens1⟩ := (hahead.upcoming rfl).exists_cons
    refine Or.inr ⟨true, fun hfalse => absurd hfalse (by decide), fun delimiters m => ?_,
      hparse data _ tokens priorityCondRight hahead (by simp [htokens1]) hfuel⟩
    rw [scan, Bool.or_true]
  · obtain ⟨token1, tokens1, htokens1⟩ := (hahead.upcoming rfl).exists_cons
    refine Or.inr ⟨false, fun _ => rfl, fun delimiters m => ?_,
      hparse data _ tokens priorityCondRight hahead (by simp [htokens1]) hfuel⟩
    rw [scan, Bool.or_false]

theorem parsed_cond (hahead : Ahead names data .condFirst tokens)
    (hfuel : 2 * tokens.length + 1 ≤ fuel + 1) :
    Parsed names alloc .operation (fun token => stops priority token = true)
      (.condFirst :: tokens) (Extends priority .condFirst result)
      (parseOperations names alloc (fuel + 1) data priority result) := by
  rw [parseOperations, hahead.current]
  simp only
  split_ifs with hpriority
  · exact parsed_stops result hahead (by simpa [stops] using hpriority)
  · obtain ⟨token1, tokens1, htokens1⟩ := (hahead.upcoming rfl).exists_cons
    have hne : 0 < tokens.length := by simp [htokens1]
    have hgood := hparse data _ tokens priorityMin hahead (by simp [htokens1]) (by omega)
    generalize parseDataParse names alloc fuel data priorityMin = result1 at hgood
    have hscan0 : ∀ delimiters m, scan .operation delimiters m (.condFirst :: tokens) =
        scan .operand (.cond :: delimiters) m tokens := by
      intro delimiters m
      rw [scan]
    cases hgood with
    | none hscan =>
      refine .none fun hall delimiters m => ?_
      rw [hscan0, hscan hall]
    | bug hscan =>
      refine .bug fun delimiters m => ?_
      rw [hscan0, hscan]
    | @some second mixed rest token2 op2 data2 htokens hahead2 hstops hscan hsecond =>
      have hlength : tokens.length = second.length + (rest.length + 1) := by
        rw [htokens, List.length_append, List.length_cons]
      rw [ok_bind]
      simp only
      rcases parsed_third hparse hahead2 hstops (by omega) (by omega) with
        ⟨rfl, hbug⟩ | ⟨mixed2, hcolon, hscan2, hgood2⟩
      · -- the tokens end before ':'
        rw [hbug]
        refine .bug fun delimiters m => ?_
        rw [hscan0, hscan]
        rfl
      · generalize parseDataParse names alloc fuel data2 priorityCondRight = result2 at hgood2
        cases hgood2 with
        | none hscan3 =>
          refine .none fun hall delimiters m => ?_
          rw [hscan0, hscan, hscan2, hscan3 hall]
        | bug hscan3 =>
          refine .bug fun delimiters m => ?_
          rw [hscan0, hscan, hscan2, hscan3]
        | @some third mixed3 rest3 token3 op3 data3 htokens3 hahead3 hstops3 hscan3 hthird =>
          rw [ok_bind]
          simp only
          rcases createEssence_cases alloc data3 (.cond result op2 op3) with
            ⟨-, hcreate⟩ | ⟨halloc, hcreate⟩
          · rw [hcreate]
            have hlength3 : rest.length = third.length + (rest3.length + 1) := by
              rw [htokens3, List.length_append, List.length_cons]
            have hgood3 := hoperations _ token3 rest3 priority (.cond result op2 op3)
              (hahead3.with_kmallocs (data3.kmallocs + 1)) (by omega)
            refine hgood3.of_scan (.condFirst :: (second ++ token2 :: third))
              (mixed || mixed2 || mixed3) ?_ ?_ ?_
            · rw [htokens, htokens3]
              simp
            · intro delimiters m
              rw [hscan0, hscan, hscan2, hscan3, Bool.or_assoc, Bool.or_assoc, Bool.or_assoc]
            · intro mixed' taken e hextends hmixed level before hbefore hlevel hbinds
              rw [Bool.or_eq_false_iff, Bool.or_eq_false_iff, Bool.or_eq_false_iff] at hmixed
              obtain ⟨⟨⟨hmixed1, hmixed2⟩, hmixed3⟩, hmixed'⟩ := hmixed
              have hzero : levelOf priority = 0 := by
                rw [levelOf, if_pos (not_lt.mp hpriority)]
              have hfirst := hbefore.mono (hbinds.condFirst rfl)
              have hcond := Derives.cond hfirst (hsecond hmixed1) (hthird hmixed3)
              rw [← hcolon hmixed2] at hcond
              have hwhole := hextends hmixed' 0 _ hcond hzero.le
                (.of_delimiter (eq_of_stops hstops3 (Nat.le_refl _)))
              rwa [List.append_assoc] at hwhole
          · rw [hcreate]
            exact .of_alloc halloc

theorem operationsGood_succ : OperationsGood names alloc (fuel + 1) := by
  intro data token tokens priority result hahead hfuel
  cases token with
  | eof
  | closeParenthesis
  | condSecond =>
    rw [parseOperations, hahead.current]
    exact parsed_stops result hahead rfl
  | operation type => exact parsed_operation hparse hoperations hahead hfuel
  | condFirst => exact parsed_cond hparse hoperations hahead hfuel
  | _ =>
    rw [parseOperations, hahead.current]
    exact .none fun _ _ _ => rfl

end Operations

theorem good (fuel : Nat) :
    ParseGood names alloc fuel ∧ OperandGood names alloc fuel ∧ OperationsGood names alloc fuel := by
  induction fuel with
  | zero =>
    refine ⟨fun data token tokens priority hahead hne hfuel => ?_,
      fun data token tokens hahead hfuel => ?_,
      fun data token tokens priority result hahead hfuel => ?_⟩
    · have hpos := List.length_pos_of_ne_nil hne
      omega
    · omega
    · omega
  | succ fuel ih =>
    obtain ⟨hparse, hoperand, hoperations⟩ := ih
    exact ⟨parseGood_succ hoperand hoperations, operandGood_succ hparse,
      operationsGood_succ hparse hoperations⟩

end Runs

section Strings

variable [Semiring V] (names : Names V)

theorem kedrCalcParse_cases (alloc : Nat → Bool) (s : CString) :
    (∃ e mixed, kedrCalcParse names alloc s = .ok (some e) ∧
      scan .operand [] false (tokens names s) = .accepts mixed ∧
      (mixed = false → ∃ taken, tokens names s = taken ++ [.eof] ∧ Derives 0 taken e)) ∨
    (kedrCalcParse names alloc s = .ok none ∧
      ((∀ i, alloc i = true) → scan .operand [] false (tokens names s) = .rejects)) ∨
    (kedrCalcParse names alloc s = .error .bug ∧
      scan .operand [] false (tokens names s) = .runsOff) := by
  rw [kedrCalcParse]
  split_ifs with halloc
  · refine Or.inr (Or.inl ⟨rfl, fun hall => ?_⟩)
    rw [hall 0] at halloc
    cases halloc
  · have hupcoming := upcoming_tokens names s
    have hahead : Ahead names ⟨s.chars, .start, 1⟩ .start (tokens names s) :=
      ⟨rfl, fun hend => (by cases hend), fun _ => hupcoming⟩
    obtain ⟨token1, tokens1, htokens1⟩ := hupcoming.exists_cons
    have hgood := (@good V _ names alloc (2 * s.chars.length)).1 _ _ _ priorityMin
      hahead (by simp [htokens1]) (Nat.mul_le_mul_left 2 (length_tokens_le names s))
    generalize parseDataParse names alloc (2 * s.chars.length) _ priorityMin = result at hgood
    cases hgood with
    | none hscan => exact Or.inr (Or.inl ⟨rfl, fun hall => hscan hall [] false⟩)
    | bug hscan => exact Or.inr (Or.inr ⟨rfl, hscan [] false⟩)
    | @some taken mixed rest token e data htokens hahead1 hstops hscan hderives =>
      have hscan := hscan [] false
      rw [Bool.false_or] at hscan
      rw [ok_bind]
      simp only [hahead1.current]
      rcases eq_of_stops hstops (Nat.zero_le _) with rfl | rfl | rfl
      · have hnil := hahead1.ended rfl
        subst hnil
        exact Or.inl ⟨e, mixed, rfl, hscan, fun hmixed => ⟨taken, htokens, hderives hmixed⟩⟩
      · exact Or.inr (Or.inl ⟨rfl, fun _ => hscan⟩)
      · exact Or.inr (Or.inl ⟨rfl, fun _ => hscan⟩)

/--
The parser comes to an end, and it never reads behind the end of the string or behind an
error, whatever is allocated, exactly when the string does not end with a complete operand
while the innermost open construct is a condition before its ':'.
-/
theorem kedrCalcParse_safe_iff (s : CString) :
    (∀ alloc, ∃ result, kedrCalcParse names alloc s = .ok result) ↔
      scan .operand [] false (tokens names s) ≠ .runsOff := by
  constructor
  · intro hsafe hscan
    obtain ⟨result, hresult⟩ := hsafe fun _ => true
    rcases kedrCalcParse_cases names (fun _ => true) s with
      ⟨e, mixed, -, haccepts, -⟩ | ⟨-, hrejects⟩ | ⟨hbug, -⟩
    · rw [hscan] at haccepts
      cases haccepts
    · rw [hrejects fun _ => rfl] at hscan
      cases hscan
    · rw [hresult] at hbug
      cases hbug
  · intro hscan alloc
    rcases kedrCalcParse_cases names alloc s with ⟨e, mixed, hok, -⟩ | ⟨hok, -⟩ | ⟨-, hruns⟩
    · exact ⟨_, hok⟩
    · exact ⟨_, hok⟩
    · exact absurd hruns hscan

/--
An accepted string is an expression of the grammar, with the returned essence, exactly when
it is not one that is accepted with a ')' that is taken for the ':' of a condition.
-/
theorem kedrCalcParse_sound_iff (s : CString) :
    (∀ e, kedrCalcParse names (fun _ => true) s = .ok (some e) →
      ∃ taken, tokens names s = taken ++ [.eof] ∧ Derives 0 taken e) ↔
      scan .operand [] false (tokens names s) ≠ .accepts true := by
  constructor
  · intro hsound hscan
    rcases kedrCalcParse_cases names (fun _ => true) s with
      ⟨e, mixed, hok, -⟩ | ⟨-, hrejects⟩ | ⟨-, hruns⟩
    · obtain ⟨taken, htokens, hderives⟩ := hsound e hok
      rw [htokens, hderives.scan] at hscan
      cases hscan
    · rw [hrejects fun _ => rfl] at hscan
      cases hscan
    · rw [hruns] at hscan
      cases hscan
  · intro hscan e hok
    rcases kedrCalcParse_cases names (fun _ => true) s with
      ⟨e', mixed, hok', haccepts, hderives⟩ | ⟨hnone, -⟩ | ⟨hbug, -⟩
    · rw [hok] at hok'
      cases hok'
      refine hderives (Bool.eq_false_iff.mpr fun htrue => hscan ?_)
      rw [haccepts, htrue]
    · rw [hok] at hnone
      cases hnone
    · rw [hok] at hbug
      cases hbug

end Strings

def text (s : List Char) (h : 0 ∉ s.map byte) : CString :=
  ⟨s.map byte, h⟩

/-- The string "1?2" ends before ':'. -/
theorem kedrCalcParse_bug :
    kedrCalcParse (⟨[], [], []⟩ : Names Int) (fun _ => true) (text ['1', '?', '2'] (by decide)) =
      .error .bug := by
  rfl

/-- In the string "(1?2)3)", the first ')' is taken for ':'. -/
theorem kedrCalcParse_mixed :
    kedrCalcParse (⟨[], [], []⟩ : Names Int) (fun _ => true)
        (text ['(', '1', '?', '2', ')', '3', ')'] (by decide)) =
      .ok (some (.cond (.value 1) (.value 2) (.value 3))) ∧
    ¬ ∃ taken, tokens (⟨[], [], []⟩ : Names Int)
        (text ['(', '1', '?', '2', ')', '3', ')'] (by decide)) = taken ++ [.eof] ∧
      Derives 0 taken (.cond (.value 1) (.value 2) (.value 3)) := by
  have hscan : scan .operand [] false (tokens (⟨[], [], []⟩ : Names Int)
      (text ['(', '1', '?', '2', ')', '3', ')'] (by decide))) = .accepts true := by rfl
  refine ⟨by rfl, ?_⟩
  rintro ⟨taken, htokens, hderives⟩
  rw [htokens, hderives.scan] at hscan
  cases hscan

end Calculator
end KedrAux
