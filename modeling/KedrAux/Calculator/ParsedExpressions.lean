import KedrAux.Calculator.ParseRuns

/-!
# Expressions of the grammar are accepted

When the tokens ahead start with an expression of the grammar, and everything is allocated,
`parse_data_parse` comes to its loop with the essence of this expression.  So a string whose
tokens are an expression is accepted, with the essence of the expression.
-/

namespace KedrAux
namespace Calculator

open ErrorCodes

variable {V : Type}

/-- A token that can follow an operand. -/
def follows (token : Token V) : Bool :=
  stops 24 token

theorem follows_operation (type : BinaryType) : follows (.operation type : Token V) = true := by
  cases type <;> rfl

theorem binds_operation (type : BinaryType) : Binds type.level (.operation type : Token V) := by
  constructor
  · intro type' heq
    cases heq
    exact Nat.le_refl _
  · intro heq
    cases heq

theorem binds_condFirst : Binds 1 (.condFirst : Token V) := by
  constructor
  · intro type heq
    cases heq
  · exact fun _ => Nat.le_refl _

variable {level priority fuel : Nat} {token : Token V} {data data' : ParseData V}
variable {op1 op2 : Essence V}

theorem Binds.succ (h : Binds level token) : Binds (level + 1) token :=
  ⟨fun type heq => Nat.le_succ_of_le (h.operation type heq),
    fun heq => Nat.le_succ_of_le (h.condFirst heq)⟩

theorem not_gt_priorityLeft {type : BinaryType} (h : levelOf priority ≤ type.level) :
    ¬ priority > type.priorityLeft := by
  have hpos := type.level_pos
  have hlt := type.level_lt
  have htwo : priorityCondLeft = 2 := rfl
  have heleven : unaryLevel = 11 := rfl
  rw [type.priorityLeft_eq]
  rw [levelOf] at h
  split_ifs at h <;> omega

theorem not_gt_priorityCondLeft (h : levelOf priority = 0) : ¬ priority > priorityCondLeft := by
  have htwo : priorityCondLeft = 2 := rfl
  have heleven : unaryLevel = 11 := rfl
  rw [levelOf] at h
  split_ifs at h <;> omega

theorem stops_of_binds (hfollows : follows token = true) (hbinds : Binds level token)
    (hpriority : 2 * level + 2 ≤ priority) :
    stops priority token = true := by
  cases token with
  | operation type =>
    have hle := hbinds.operation type rfl
    simp only [stops, type.priorityLeft_eq, decide_eq_true_eq]
    omega
  | condFirst =>
    have hle := hbinds.condFirst rfl
    have htwo : priorityCondLeft = 2 := rfl
    simp only [stops, htwo, decide_eq_true_eq]
    omega
  | eof => rfl
  | closeParenthesis => rfl
  | condSecond => rfl
  | _ => cases hfollows

theorem stops_of_binds_zero (hfollows : follows token = true) (hbinds : Binds 0 token) :
    stops priority token = true := by
  cases token with
  | operation type => exact absurd (hbinds.operation type rfl) (by have := type.level_pos; omega)
  | condFirst => exact absurd (hbinds.condFirst rfl) (by decide)
  | eof => rfl
  | closeParenthesis => rfl
  | condSecond => rfl
  | _ => cases hfollows

theorem stops_of_follows (hfollows : follows token = true) (type : UnaryType) :
    stops type.priority token = true := by
  have hbinds : Binds 10 token :=
    ⟨fun type _ => Nat.le_of_lt_succ type.level_lt, fun _ => by decide⟩
  refine stops_of_binds hfollows hbinds ?_
  cases type <;> decide

@[simp] theorem createEssence_true (data : ParseData V) (e : Essence V) :
    createEssence (fun _ => true) data e =
      (some e, { data with kmallocs := data.kmallocs + 1 }) :=
  rfl

variable [Semiring V] {names : Names V}

theorem parseOperations_of_stops {alloc : Nat → Bool} (result : Essence V)
    (hcurrent : data.currentToken = token) (hstops : stops priority token = true) :
    parseOperations names alloc (fuel + 1) data priority result = .ok (some result, data) := by
  rw [parseOperations, hcurrent]
  cases token with
  | eof => rfl
  | closeParenthesis => rfl
  | condSecond => rfl
  | operation type =>
    have hlt : priority > type.priorityLeft := by simpa [stops] using hstops
    exact if_pos hlt
  | condFirst =>
    have hlt : priority > priorityCondLeft := by simpa [stops] using hstops
    exact if_pos hlt
  | _ => cases hstops

theorem parseOperations_operation {type : BinaryType}
    (hcurrent : data.currentToken = .operation type) (hpriority : ¬ priority > type.priorityLeft)
    (hparse : parseDataParse names (fun _ => true) fuel data type.priorityRight =
      .ok (some op2, data')) :
    parseOperations names (fun _ => true) (fuel + 1) data priority op1 =
      parseOperations names (fun _ => true) fuel { data' with kmallocs := data'.kmallocs + 1 }
        priority (.binary type op1 op2) := by
  rw [parseOperations, hcurrent]
  simp only [if_neg hpriority, hparse, ok_bind, createEssence_true]

theorem parseOperations_cond {data'' : ParseData V} {op3 : Essence V}
    (hcurrent : data.currentToken = .condFirst) (hpriority : ¬ priority > priorityCondLeft)
    (hparse : parseDataParse names (fun _ => true) fuel data priorityMin = .ok (some op2, data'))
    (hparse' : parseDataParse names (fun _ => true) fuel data' priorityCondRight =
      .ok (some op3, data'')) :
    parseOperations names (fun _ => true) (fuel + 1) data priority op1 =
      parseOperations names (fun _ => true) fuel { data'' with kmallocs := data''.kmallocs + 1 }
        priority (.cond op1 op2 op3) := by
  rw [parseOperations, hcurrent]
  simp only [if_neg hpriority, hparse, hparse', ok_bind, createEssence_true]

theorem parseDataParse_operand {data1 data2 : ParseData V} {e : Essence V}
    (hnext : parseDataNextToken names data = .ok data1)
    (hoperand : parseOperand names (fun _ => true) fuel data1 = .ok (some e, data2)) :
    parseDataParse names (fun _ => true) (fuel + 1) data priority =
      parseOperations names (fun _ => true) fuel data2 priority e := by
  rw [parseDataParse, hnext, ok_bind, hoperand, ok_bind]

theorem Derives.parseDataParse
    {level : Nat} {taken : List (Token V)} {e : Essence V} (h : Derives level taken e)
    {fuel : Nat} {data : ParseData V} {token next : Token V} {rest : List (Token V)} {priority : Nat}
    (hahead : Ahead names data token (taken ++ next :: rest))
    (hfuel : 2 * (taken ++ next :: rest).length ≤ fuel) (hlevel : levelOf priority ≤ level)
    (hbinds : Binds level next) (hfollows : follows next = true) :
    ∃ fuel' data', Ahead names data' next rest ∧ 2 * rest.length + 1 ≤ fuel' ∧
      parseDataParse names (fun _ => true) fuel data priority =
        parseOperations names (fun _ => true) fuel' data' priority e := by
  induction h generalizing fuel data token next rest priority with
  | @leaf token1 e hleaf =>
    rw [List.singleton_append] at hahead
    simp only [List.singleton_append, List.length_cons] at hfuel
    obtain ⟨fuel, rfl⟩ : ∃ f, fuel = f + 2 := ⟨fuel - 2, by omega⟩
    obtain ⟨expr1, hnext1, hahead1⟩ := hahead.nextToken
    obtain ⟨expr2, hnext2, hahead2⟩ := (hahead1.with_kmallocs (data.kmallocs + 1)).nextToken
    refine ⟨fuel + 1, _, hahead2, by omega, parseDataParse_operand hnext1 ?_⟩
    rw [parseOperand_leaf rfl hleaf]
    simp only [parseLeaf, createEssence_true, hnext2, ok_bind]
    rfl
  | @parentheses tokens e h ih =>
    simp only [List.cons_append, List.append_assoc] at hahead hfuel
    simp only [List.length_cons, List.length_append] at hfuel
    obtain ⟨fuel, rfl⟩ : ∃ f, fuel = f + 2 := ⟨fuel - 2, by omega⟩
    obtain ⟨expr1, hnext1, hahead1⟩ := hahead.nextToken
    obtain ⟨fuel2, data2, hahead2, hfuel2, hparse2⟩ := @ih fuel _ _ .closeParenthesis _ priorityMin
      hahead1 (by simp only [List.length_append, List.length_cons]; omega) (Nat.le_refl _)
      (.of_delimiter (Or.inr (Or.inl rfl))) rfl
    obtain ⟨expr3, hnext3, hahead3⟩ := hahead2.nextToken
    refine ⟨fuel + 1, _, hahead3, by omega, parseDataParse_operand hnext1 ?_⟩
    obtain ⟨fuel2, rfl⟩ : ∃ f, fuel2 = f + 1 := ⟨fuel2 - 1, by omega⟩
    rw [parseOperand_open rfl, hparse2, parseOperations_of_stops e hahead2.current rfl, ok_bind]
    simp only [closeParenthesis, hahead2.current, hnext3, ok_bind]
    rfl
  | @unary token1 type tokens e htype h ih =>
    rw [List.cons_append] at hahead
    simp only [List.cons_append, List.length_cons] at hfuel
    obtain ⟨fuel, rfl⟩ : ∃ f, fuel = f + 2 := ⟨fuel - 2, by omega⟩
    obtain ⟨expr1, hnext1, hahead1⟩ := hahead.nextToken
    obtain ⟨fuel2, data2, hahead2, hfuel2, hparse2⟩ := @ih fuel _ _ next rest type.priority
      hahead1 (by omega) (levelOf_priority type).le hbinds hfollows
    refine ⟨fuel + 1, _, hahead2.with_kmallocs (data2.kmallocs + 1), ?_,
      parseDataParse_operand hnext1 ?_⟩
    · have hlength : (tokens ++ next :: rest).length = tokens.length + (rest.length + 1) := by simp
      omega
    · obtain ⟨fuel2, rfl⟩ : ∃ f, fuel2 = f + 1 := ⟨fuel2 - 1, by omega⟩
      rw [parseOperand_unary rfl htype, hparse2,
        parseOperations_of_stops e hahead2.current (stops_of_follows hfollows type), ok_bind]
      rfl
  | @binary type left right op1 op2 hleft hright ihl ihr =>
    rw [List.append_assoc, List.cons_append] at hahead hfuel
    obtain ⟨fuel1, data1, hahead1, hfuel1, hparse1⟩ := @ihl fuel data token _ _ priority hahead
      hfuel hlevel (binds_operation type) (follows_operation type)
    obtain ⟨fuel1, rfl⟩ : ∃ f, fuel1 = f + 1 := ⟨fuel1 - 1, by omega⟩
    obtain ⟨fuel2, data2, hahead2, hfuel2, hparse2⟩ := @ihr fuel1 data1 _ next rest
      type.priorityRight hahead1 (by omega) (levelOf_priorityRight type).le
      hbinds.succ hfollows
    obtain ⟨fuel2, rfl⟩ : ∃ f, fuel2 = f + 1 := ⟨fuel2 - 1, by omega⟩
    have hstops : stops type.priorityRight next = true :=
      stops_of_binds hfollows hbinds type.priorityRight_eq.ge
    rw [parseOperations_of_stops op2 hahead2.current hstops] at hparse2
    have hpriority := not_gt_priorityLeft hlevel
    refine ⟨fuel1, _, hahead2.with_kmallocs (data2.kmallocs + 1), ?_, ?_⟩
    · simp only [List.length_append, List.length_cons] at hfuel1
      omega
    · rw [hparse1, parseOperations_operation hahead1.current hpriority hparse2]
  | @cond first second third op1 op2 op3 hfirst hsecond hthird ih1 ih2 ih3 =>
    simp only [List.append_assoc, List.cons_append] at hahead hfuel
    have hzero : levelOf priority = 0 := Nat.le_zero.mp hlevel
    obtain ⟨fuel1, data1, hahead1, hfuel1, hparse1⟩ := @ih1 fuel data token .condFirst _ priority
      hahead hfuel (hzero.le.trans (Nat.zero_le _))
      binds_condFirst rfl
    obtain ⟨fuel1, rfl⟩ : ∃ f, fuel1 = f + 1 := ⟨fuel1 - 1, by omega⟩
    obtain ⟨fuel2, data2, hahead2, hfuel2, hparse2⟩ := @ih2 fuel1 data1 _ .condSecond _ priorityMin
      hahead1 (by omega) (Nat.le_refl _) (.of_delimiter (Or.inr (Or.inr rfl))) rfl
    obtain ⟨fuel2, rfl⟩ : ∃ f, fuel2 = f + 1 := ⟨fuel2 - 1, by omega⟩
    rw [parseOperations_of_stops op2 hahead2.current rfl] at hparse2
    have hlength : 2 * (third ++ next :: rest).length ≤ fuel1 := by
      simp only [List.length_append, List.length_cons] at hfuel1 ⊢
      omega
    obtain ⟨fuel3, data3, hahead3, hfuel3, hparse3⟩ := @ih3 fuel1 data2 _ next rest
      priorityCondRight hahead2 hlength (Nat.le_refl _) hbinds hfollows
    obtain ⟨fuel3, rfl⟩ : ∃ f, fuel3 = f + 1 := ⟨fuel3 - 1, by omega⟩
    rw [parseOperations_of_stops op3 hahead3.current (stops_of_binds_zero hfollows hbinds)]
      at hparse3
    have hpriority := not_gt_priorityCondLeft hzero
    refine ⟨fuel1, _, hahead3.with_kmallocs (data3.kmallocs + 1), ?_, ?_⟩
    · simp only [List.length_append, List.length_cons] at hfuel1
      omega
    · rw [hparse1, parseOperations_cond hahead1.current hpriority hparse2 hparse3]
  | up h ih =>
    exact ih hahead hfuel (Nat.le_succ_of_le hlevel) hbinds.succ hfollows

theorem Derives.kedrCalcParse
    {taken : List (Token V)} {e : Essence V} (h : Derives 0 taken e) {s : CString}
    (htokens : tokens names s = taken ++ [.eof]) :
    kedrCalcParse names (fun _ => true) s = .ok (some e) := by
  have hahead : Ahead names ⟨s.chars, .start, 1⟩ .start (taken ++ [.eof]) :=
    ⟨rfl, fun hend => (by cases hend), fun _ => htokens ▸ upcoming_tokens names s⟩
  have hlength := length_tokens_le names s
  rw [htokens] at hlength
  obtain ⟨fuel, data, hahead', hfuel, hparse⟩ := h.parseDataParse hahead
    (Nat.mul_le_mul_left 2 hlength) (Nat.le_refl (levelOf priorityMin)) (.of_delimiter (Or.inl rfl))
    rfl
  obtain ⟨fuel, rfl⟩ : ∃ f, fuel = f + 1 := ⟨fuel - 1, by omega⟩
  rw [parseOperations_of_stops e hahead'.current rfl] at hparse
  simp only [Calculator.kedrCalcParse, hparse, ok_bind, hahead'.current]
  rfl

end Calculator
end KedrAux
