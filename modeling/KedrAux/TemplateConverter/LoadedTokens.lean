import KedrAux.Lib.ErrorCodes
import KedrAux.TemplateConverter.Loader

/-!
# Loaded templates and their tokens

A template is loaded without an error when a well-nested sequence of tokens is read up to the end
of the file or to a directive `else` or `endif`; at the top level nothing checks that it was the
end of the file.
-/

namespace KedrAux
namespace TemplateConverter

open ErrorCodes

/-- A text or a directive; `else` and `endif` are not stored in the tree. -/
inductive Written where
  | text (position : Position) (text : CString)
  | ref (position : Position) (value : CString)
  | ifDirective (position : Position) (value : CString)
  | elseDirective
  | endifDirective
deriving DecidableEq

def Token.written (token : Token) : Written :=
  match token.name with
  | .textSentence => .text token.position token.value
  | .refSentence => .ref token.position token.value
  | .ifSentence => .ifDirective token.position token.value
  | .elseSentence => .elseDirective
  | .endifSentence => .endifDirective

mutual

def ASTElem.written : ASTElem → List Written
  | .text position _ text => [.text position text]
  | .ref elemRef _ _ => [.ref elemRef.position elemRef.value]
  | .ifEndif elemRef _ ifSequence =>
    .ifDirective elemRef.position elemRef.value ::
      (writtenSequence ifSequence ++ [.endifDirective])
  | .ifElse elemRef _ ifSequence elseSequence =>
    .ifDirective elemRef.position elemRef.value ::
      (writtenSequence ifSequence ++
        .elseDirective :: (writtenSequence elseSequence ++ [.endifDirective]))

def writtenSequence : List ASTElem → List Written
  | [] => []
  | elem :: elems => elem.written ++ writtenSequence elems

end

inductive WellNested : List Token → Prop
  | nil : WellNested []
  | single {token : Token} {tokens : List Token} :
      token.name = .textSentence ∨ token.name = .refSentence →
      WellNested tokens →
      WellNested (token :: tokens)
  | ifEndif {ifToken endifToken : Token} {inner tokens : List Token} :
      ifToken.name = .ifSentence →
      WellNested inner →
      endifToken.name = .endifSentence →
      WellNested tokens →
      WellNested (ifToken :: (inner ++ endifToken :: tokens))
  | ifElse {ifToken elseToken endifToken : Token} {inner inner' tokens : List Token} :
      ifToken.name = .ifSentence →
      WellNested inner →
      elseToken.name = .elseSentence →
      WellNested inner' →
      endifToken.name = .endifSentence →
      WellNested tokens →
      WellNested (ifToken :: (inner ++ elseToken :: (inner' ++ endifToken :: tokens)))

def Token.IsStop (token : Token) : Prop :=
  token.name = .elseSentence ∨ token.name = .endifSentence

/-- Nothing, or a directive at which a sequence stops. -/
def Stops (tokens : List Token) : Prop := ∀ token rest, tokens = token :: rest → token.IsStop

variable (methods : Methods)

/-- What a reference of the token does to the contexts of the template. -/
def refer (contexts : Contexts) (token : Token) : Except LoadError Contexts :=
  match token.name with
  | .ifSentence => (loadCondition methods contexts token).map fun r => r.2.2
  | .refSentence => (loadRef methods contexts token).map Prod.snd
  | _ => .ok contexts

/-- The references of the tokens are accepted, one after another. -/
def Accepted (contexts : Contexts) (tokens : List Token) (contexts' : Contexts) : Prop :=
  tokens.foldlM (refer methods) contexts = .ok contexts'

variable {methods} {contexts contexts' : Contexts} {token : Token} {α β : Type}

theorem Accepted.nil : Accepted methods contexts [] contexts := rfl

variable {tokens : List Token}

theorem accepted_cons :
    Accepted methods contexts (token :: tokens) contexts' ↔
      ∃ contexts1, refer methods contexts token = .ok contexts1 ∧
        Accepted methods contexts1 tokens contexts' := by
  rw [Accepted, List.foldlM_cons]
  constructor
  · intro h
    exact bind_eq_ok h
  · rintro ⟨contexts1, hrefer, h⟩
    rw [hrefer]
    exact h

theorem accepted_append {tokens' : List Token} :
    Accepted methods contexts (tokens ++ tokens') contexts' ↔
      ∃ contexts1, Accepted methods contexts tokens contexts1 ∧
        Accepted methods contexts1 tokens' contexts' := by
  rw [Accepted, List.foldlM_append]
  constructor
  · intro h
    exact bind_eq_ok h
  · rintro ⟨contexts1, htokens, h⟩
    rw [Accepted] at htokens
    rw [htokens]
    exact h

theorem accepted_cons_of_no_ref (hif : token.name ≠ .ifSentence)
    (href : token.name ≠ .refSentence) :
    Accepted methods contexts (token :: tokens) contexts' ↔
      Accepted methods contexts tokens contexts' := by
  have hrefer : refer methods contexts token = .ok contexts := by
    rw [refer]
    split
    · exact absurd ‹_› hif
    · exact absurd ‹_› href
    · rfl
  rw [accepted_cons, hrefer]
  constructor
  · rintro ⟨contexts1, hcontexts, h⟩
    cases hcontexts
    exact h
  · exact fun h => ⟨contexts, rfl, h⟩

/-- The tokens that are not read yet, one of them may have been given back. -/
def Loader.pending (loader : Loader) : List Token :=
  if loader.isTokenConsumed then loader.scanner.tokens
  else loader.currentToken.toList ++ loader.scanner.tokens

structure Loader.At (loader : Loader) (tokens : List Token) : Prop where
  pending : loader.pending = tokens
  current : loader.isTokenConsumed = false → loader.currentToken.isSome = true

/-- The loader has read the token, and is before the given ones. -/
structure Loader.After (loader : Loader) (token : Token) (tokens : List Token) : Prop where
  pending : loader.scanner.tokens = tokens
  consumed : loader.isTokenConsumed = true
  current : loader.currentToken = some token

variable {loader : Loader}

section Tokens

theorem Loader.After.at (h : loader.After token tokens) : loader.At tokens := by
  constructor
  · rw [Loader.pending, if_pos h.consumed]
    exact h.pending
  · intro hconsumed
    rw [h.consumed] at hconsumed
    cases hconsumed

theorem getToken_nil (h : loader.At []) :
    ∃ loader', loader.getToken = .ok (none, loader') ∧ loader'.At [] := by
  cases hconsumed : loader.isTokenConsumed with
  | false =>
    obtain ⟨token, htoken⟩ := Option.isSome_iff_exists.mp (h.current hconsumed)
    have hpending := h.pending
    rw [Loader.pending, hconsumed, htoken] at hpending
    cases hpending
  | true =>
    have htokens := h.pending
    rw [Loader.pending, if_pos hconsumed] at htokens
    have hcontent : loader.scanner.content = [] := by
      by_contra hne
      obtain ⟨token, scanner', hreads⟩ := Scanner.reads hne
      rw [hreads.tokens_eq] at htokens
      cases htokens
    refine ⟨{ loader with scanner := loader.scanner, currentToken := none }, ?_, ?_, ?_⟩
    · rw [Loader.getToken, hconsumed, Scanner.token_nil hcontent]
      rfl
    · simpa only [Loader.pending, hconsumed, if_true] using htokens
    · intro hfalse
      rw [hconsumed] at hfalse
      cases hfalse

theorem getToken_cons (h : loader.At (token :: tokens)) :
    ∃ loader', loader.getToken = .ok (some token, loader') ∧ loader'.After token tokens := by
  have hpending := h.pending
  cases hconsumed : loader.isTokenConsumed with
  | false =>
    obtain ⟨current, hcurrent⟩ := Option.isSome_iff_exists.mp (h.current hconsumed)
    rw [Loader.pending, hconsumed, hcurrent] at hpending
    obtain ⟨rfl, htokens⟩ := List.cons.inj hpending
    refine ⟨{ loader with isTokenConsumed := true }, ?_, htokens, rfl, hcurrent⟩
    rw [Loader.getToken, hconsumed, hcurrent]
    rfl
  | true =>
    rw [Loader.pending, if_pos hconsumed] at hpending
    have hcontent : loader.scanner.content ≠ [] := by
      intro hnil
      rw [Scanner.tokens_nil hnil] at hpending
      cases hpending
    obtain ⟨token', scanner', hreads⟩ := Scanner.reads hcontent
    rw [hreads.tokens_eq] at hpending
    obtain ⟨rfl, htokens⟩ := List.cons.inj hpending
    refine ⟨{ loader with scanner := scanner', currentToken := some token' }, ?_, htokens,
      hconsumed, rfl⟩
    rw [Loader.getToken, hconsumed, hreads.token_eq]
    rfl

theorem ungetToken_eq (h : loader.After token tokens) :
    ∃ loader', loader.ungetToken = .ok loader' ∧ loader'.At (token :: tokens) := by
  refine ⟨{ loader with isTokenConsumed := false }, if_pos h.consumed, ?_, ?_⟩
  · rw [Loader.pending]
    simp only [h.current, h.pending]
    rfl
  · intro _
    rw [h.current]
    rfl

theorem loadEndif_eq (h : loader.At (token :: tokens)) (hname : token.name = .endifSentence) :
    ∃ loader', loadEndif loader = .ok loader' ∧ loader'.At tokens := by
  obtain ⟨loader', hget, hafter⟩ := getToken_cons h
  refine ⟨loader', ?_, hafter.at⟩
  simp only [loadEndif, hget, ok_bind, tokenName, hname, ne_eq, not_true_eq_false, if_false]
  rfl

theorem loadEndif_ok {loader' : Loader} (h : loader.At tokens) (hok : loadEndif loader = .ok loader') :
    ∃ endifToken rest, tokens = endifToken :: rest ∧ endifToken.name = .endifSentence ∧
      loader'.At rest := by
  cases tokens with
  | nil =>
    obtain ⟨loader1, hget, -⟩ := getToken_nil h
    rw [loadEndif, hget] at hok
    cases hok
  | cons token tokens =>
    obtain ⟨loader1, hget, hafter⟩ := getToken_cons h
    simp only [loadEndif, hget, ok_bind, tokenName] at hok
    split_ifs at hok with hendif
    · cases hok
    · cases hok
      exact ⟨token, tokens, rfl, not_not.mp hendif, hafter.at⟩

end Tokens

structure Loaded (methods : Methods) (contexts : Contexts) (tokens : List Token)
    (elems : List ASTElem) (contexts' : Contexts) (rest : List Token) : Prop where
  exists_tokens : ∃ pre, tokens = pre ++ rest ∧ WellNested pre ∧
    writtenSequence elems = pre.map Token.written ∧ Accepted methods contexts pre contexts'
  stops : Stops rest

variable {elem : ASTElem} {elems : List ASTElem} {loader' : Loader} {rest : List Token}

section Loaded

theorem Loaded.nil (h : Stops tokens) : Loaded methods contexts tokens [] contexts tokens :=
  ⟨⟨[], rfl, .nil, rfl, .nil⟩, h⟩

theorem Loaded.cons {contexts1 : Contexts}
    (h : Loaded methods contexts1 tokens elems contexts' rest)
    (hname : token.name = .textSentence ∨ token.name = .refSentence)
    (hwritten : elem.written = [token.written])
    (hrefer : refer methods contexts token = .ok contexts1) :
    Loaded methods contexts (token :: tokens) (elem :: elems) contexts' rest := by
  obtain ⟨⟨pre, rfl, hnested, hpre, haccepted⟩, hstops⟩ := h
  refine ⟨⟨token :: pre, rfl, .single hname hnested, ?_, accepted_cons.mpr ⟨_, hrefer, haccepted⟩⟩,
    hstops⟩
  rw [writtenSequence, hwritten, hpre]
  rfl

/-- The tokens of an `if`, without the first one. -/
structure IfLoaded (methods : Methods) (elemRef : ElemRef) (contexts : Contexts)
    (tokens : List Token) (elem : ASTElem) (contexts' : Contexts) (rest : List Token) : Prop where
  exists_tokens : ∃ pre, tokens = pre ++ rest ∧
    (∀ ifToken tokens', ifToken.name = .ifSentence → WellNested tokens' →
      WellNested (ifToken :: (pre ++ tokens'))) ∧
    elem.written = .ifDirective elemRef.position elemRef.value :: pre.map Token.written ∧
    Accepted methods contexts pre contexts'

variable {elemRef : ElemRef} {isConcat : Bool}

theorem loadIf_ok {load : Contexts → Loader → Except LoadError (List ASTElem × Contexts × Loader)}
    (hload : ∀ contexts tokens loader elems contexts' loader', loader.At tokens →
      load contexts loader = .ok (elems, contexts', loader') →
        ∃ rest, loader'.At rest ∧ Loaded methods contexts tokens elems contexts' rest)
    (h : loader.At tokens)
    (hok : loadIf load elemRef isConcat contexts loader = .ok (elem, contexts', loader')) :
    ∃ rest, loader'.At rest ∧ IfLoaded methods elemRef contexts tokens elem contexts' rest := by
  rw [loadIf] at hok
  obtain ⟨⟨ifSequence, contexts1, loader1⟩, hif, hok⟩ := bind_eq_ok hok
  obtain ⟨rest1, hat1, ⟨inner, rfl, hinner, hwritten, haccepted⟩, -⟩ := hload _ _ _ _ _ _ h hif
  cases rest1 with
  | nil =>
    obtain ⟨loader2, hget, -⟩ := getToken_nil hat1
    simp only [hget, ok_bind, tokenName] at hok
    cases hok
  | cons token rest1 =>
    obtain ⟨loader2, hget, hafter⟩ := getToken_cons hat1
    simp only [hget, ok_bind, tokenName] at hok
    split_ifs at hok with helse
    · obtain ⟨⟨elseSequence, contexts2, loader3⟩, helseSequence, hok⟩ := bind_eq_ok hok
      obtain ⟨rest2, hat2, ⟨inner', rfl, hinner', hwritten', haccepted'⟩, -⟩ :=
        hload _ _ _ _ _ _ hafter.at helseSequence
      obtain ⟨loader4, hendif, hok⟩ := bind_eq_ok hok
      obtain ⟨endifToken, rest, rfl, hname, hat⟩ := loadEndif_ok hat2 hendif
      cases hok
      refine ⟨rest, hat, ⟨inner ++ token :: (inner' ++ [endifToken]), by simp, ?_, ?_, ?_⟩⟩
      · intro ifToken tokens' hifToken htokens'
        have hnested := WellNested.ifElse hifToken hinner helse hinner' hname htokens'
        simpa using hnested
      · have htoken : token.written = .elseDirective := by rw [Token.written, helse]
        have hendifToken : endifToken.written = .endifDirective := by rw [Token.written, hname]
        simp [ASTElem.written, hwritten, hwritten', htoken, hendifToken]
      · refine accepted_append.mpr ⟨contexts1, haccepted, ?_⟩
        rw [accepted_cons_of_no_ref (by rw [helse]; decide) (by rw [helse]; decide)]
        refine accepted_append.mpr ⟨_, haccepted', ?_⟩
        rw [accepted_cons_of_no_ref (by rw [hname]; decide) (by rw [hname]; decide)]
        exact .nil
    · obtain ⟨loader3, hunget, hok⟩ := bind_eq_ok hok
      obtain ⟨loader3', hunget', hat3⟩ := ungetToken_eq hafter
      rw [hunget] at hunget'
      cases hunget'
      obtain ⟨loader4, hendif, hok⟩ := bind_eq_ok hok
      obtain ⟨endifToken, rest, heq, hname, hat⟩ := loadEndif_ok hat3 hendif
      obtain ⟨rfl, rfl⟩ := List.cons.inj heq
      cases hok
      refine ⟨rest1, hat, ⟨inner ++ [token], by simp, ?_, ?_, ?_⟩⟩
      · intro ifToken tokens' hifToken htokens'
        have hnested := WellNested.ifEndif hifToken hinner hname htokens'
        simpa using hnested
      · have htoken : token.written = .endifDirective := by rw [Token.written, hname]
        simp [ASTElem.written, hwritten, htoken]
      · refine accepted_append.mpr ⟨_, haccepted, ?_⟩
        rw [accepted_cons_of_no_ref (by rw [hname]; decide) (by rw [hname]; decide)]
        exact .nil

theorem getElemRef_ok {refName : CString} {position : Position} {value : CString}
    (h : getElemRef methods refName position value = .ok elemRef) :
    elemRef.position = position ∧ elemRef.value = value := by
  rw [getElemRef] at h
  split at h
  · cases h
  · cases h
    exact ⟨rfl, rfl⟩
  · cases h
    exact ⟨rfl, rfl⟩

theorem loadCondition_ok
    (h : loadCondition methods contexts token = .ok (elemRef, isConcat, contexts')) :
    elemRef.position = token.position ∧ elemRef.value = token.value := by
  rw [loadCondition] at h
  obtain ⟨elemRef', helem, h⟩ := bind_eq_ok h
  obtain ⟨contexts1, -, h⟩ := bind_eq_ok h
  cases h
  exact getElemRef_ok helem

theorem loadRef_ok (h : loadRef methods contexts token = .ok (elem, contexts')) :
    elem.written = [.ref token.position token.value] := by
  rw [loadRef] at h
  obtain ⟨elemRef', helem, h⟩ := bind_eq_ok h
  obtain ⟨contexts1, -, h⟩ := bind_eq_ok h
  cases h
  obtain ⟨hposition, hvalue⟩ := getElemRef_ok helem
  rw [ASTElem.written, hposition, hvalue]

theorem loadSequence_ok {n : Nat} (h : loader.At tokens)
    (hok : loadSequence methods n contexts loader = .ok (elems, contexts', loader')) :
    ∃ rest, loader'.At rest ∧ Loaded methods contexts tokens elems contexts' rest := by
  induction n generalizing contexts tokens loader elems contexts' loader' with
  | zero => cases hok
  | succ n ih =>
    rw [loadSequence] at hok
    cases tokens with
    | nil =>
      obtain ⟨loader1, hget, hat⟩ := getToken_nil h
      simp only [hget, ok_bind] at hok
      cases hok
      exact ⟨[], hat, .nil fun token rest heq => (by cases heq)⟩
    | cons token tokens =>
      obtain ⟨loader1, hget, hafter⟩ := getToken_cons h
      simp only [hget, ok_bind] at hok
      -- the sequence stops, and the token is given back
      have hstop : token.IsStop → (loader1.ungetToken >>= fun loader =>
          pure ([], contexts, loader)) = .ok (elems, contexts', loader') →
          ∃ rest, loader'.At rest ∧
            Loaded methods contexts (token :: tokens) elems contexts' rest := by
        intro hname hok
        obtain ⟨loader2, hunget, hat⟩ := ungetToken_eq hafter
        rw [hunget] at hok
        cases hok
        refine ⟨token :: tokens, hat, .nil fun token' rest heq => ?_⟩
        obtain ⟨rfl, -⟩ := List.cons.inj heq
        exact hname
      cases hname : token.name with
      | textSentence =>
        simp only [hname] at hok
        obtain ⟨⟨elems1, contexts1, loader2⟩, hrest, hok⟩ := bind_eq_ok hok
        obtain ⟨rest, hat, hloaded⟩ := ih hafter.at hrest
        cases hok
        refine ⟨rest, hat, hloaded.cons (Or.inl hname) ?_ ?_⟩
        · rw [ASTElem.written, Token.written, hname]
        · rw [refer, hname]
      | ifSentence =>
        simp only [hname] at hok
        obtain ⟨⟨elemRef, isConcat, contexts1⟩, hcondition, hok⟩ := bind_eq_ok hok
        obtain ⟨⟨elem, contexts2, loader2⟩, hif, hok⟩ := bind_eq_ok hok
        obtain ⟨⟨elems1, contexts3, loader3⟩, hrest, hok⟩ := bind_eq_ok hok
        obtain ⟨rest1, hat1, ⟨pre, rfl, hnested, hwritten, haccepted⟩⟩ :=
          loadIf_ok (fun _ _ _ _ _ _ => ih) hafter.at hif
        obtain ⟨rest, hat, ⟨pre', rfl, hnested', hwritten', haccepted'⟩, hstops⟩ :=
          ih hat1 hrest
        cases hok
        obtain ⟨hposition, hvalue⟩ := loadCondition_ok hcondition
        refine ⟨rest, hat, ⟨token :: (pre ++ pre'), by simp, hnested _ _ hname hnested', ?_,
          ?_⟩, hstops⟩
        · have htoken : token.written = .ifDirective elemRef.position elemRef.value := by
            rw [Token.written, hname, hposition, hvalue]
          simp [writtenSequence, hwritten, hwritten', htoken]
        · refine accepted_cons.mpr ⟨contexts1, ?_, accepted_append.mpr
            ⟨contexts2, haccepted, haccepted'⟩⟩
          rw [refer, hname]
          simp only [hcondition]
          rfl
      | elseSentence =>
        simp only [hname] at hok
        exact hstop (Or.inl hname) hok
      | endifSentence =>
        simp only [hname] at hok
        exact hstop (Or.inr hname) hok
      | refSentence =>
        simp only [hname] at hok
        obtain ⟨⟨elem, contexts1⟩, href, hok⟩ := bind_eq_ok hok
        obtain ⟨⟨elems1, contexts2, loader2⟩, hrest, hok⟩ := bind_eq_ok hok
        obtain ⟨rest, hat, hloaded⟩ := ih hafter.at hrest
        cases hok
        refine ⟨rest, hat, hloaded.cons (Or.inr hname) ?_ ?_⟩
        · rw [loadRef_ok href, Token.written, hname]
        · rw [refer, hname]
          simp only [href]
          rfl

end Loaded

section Loads

theorem refer_if (hname : token.name = .ifSentence)
    (h : refer methods contexts token = .ok contexts') :
    ∃ elemRef isConcat, loadCondition methods contexts token = .ok (elemRef, isConcat, contexts') := by
  rw [refer, hname] at h
  cases hcondition : loadCondition methods contexts token with
  | error e =>
    simp only [hcondition] at h
    cases h
  | ok r =>
    simp only [hcondition] at h
    cases h
    exact ⟨r.1, r.2.1, rfl⟩

theorem refer_ref (hname : token.name = .refSentence)
    (h : refer methods contexts token = .ok contexts') :
    ∃ elem, loadRef methods contexts token = .ok (elem, contexts') := by
  rw [refer, hname] at h
  cases href : loadRef methods contexts token with
  | error e =>
    simp only [href] at h
    cases h
  | ok r =>
    simp only [href] at h
    cases h
    exact ⟨r.1, rfl⟩

theorem loadSequence_of_wellNested {pre post : List Token} (hnested : WellNested pre) {n : Nat}
    (hlength : pre.length < n) (h : loader.At (pre ++ post)) (hstops : Stops post)
    (haccepted : Accepted methods contexts pre contexts') :
    ∃ elems loader', loadSequence methods n contexts loader = .ok (elems, contexts', loader') ∧
      loader'.At post := by
  induction hnested generalizing n post contexts contexts' loader with
  | nil =>
    obtain ⟨n, rfl⟩ := Nat.exists_eq_add_one_of_ne_zero (Nat.ne_of_gt hlength)
    cases haccepted
    rw [loadSequence]
    cases post with
    | nil =>
      obtain ⟨loader1, hget, hat⟩ := getToken_nil h
      simp only [hget, ok_bind]
      exact ⟨[], loader1, rfl, hat⟩
    | cons token post =>
      obtain ⟨loader1, hget, hafter⟩ := getToken_cons h
      obtain ⟨loader2, hunget, hat⟩ := ungetToken_eq hafter
      refine ⟨[], loader2, ?_, hat⟩
      rcases hstops token post rfl with hname | hname <;>
        simp only [hget, ok_bind, hname, hunget] <;> rfl
  | @single token tokens hname _ ih =>
    obtain ⟨n, rfl⟩ := Nat.exists_eq_add_one_of_ne_zero (Nat.ne_of_gt (Nat.zero_lt_of_lt hlength))
    obtain ⟨contexts1, hrefer, haccepted⟩ := accepted_cons.mp haccepted
    obtain ⟨loader1, hget, hafter⟩ := getToken_cons h
    obtain ⟨elems, loader', hload, hat⟩ :=
      ih (Nat.lt_of_succ_lt_succ hlength) hafter.at hstops haccepted
    rw [loadSequence]
    rcases hname with hname | hname
    · have hcontexts : contexts1 = contexts := by
        rw [refer, hname] at hrefer
        cases hrefer
        rfl
      rw [hcontexts] at hload
      simp only [hget, ok_bind, hname, hload]
      exact ⟨_, loader', rfl, hat⟩
    · obtain ⟨elem, href⟩ := refer_ref hname hrefer
      simp only [hget, ok_bind, hname, href, hload]
      exact ⟨_, loader', rfl, hat⟩
  | @ifEndif ifToken endifToken inner tokens hif _ hendif _ ihinner ihtokens =>
    obtain ⟨n, rfl⟩ := Nat.exists_eq_add_one_of_ne_zero (Nat.ne_of_gt (Nat.zero_lt_of_lt hlength))
    have hlengths : inner.length < n ∧ tokens.length < n := by
      simp only [List.length_cons, List.length_append] at hlength
      omega
    obtain ⟨contexts1, hrefer, haccepted⟩ := accepted_cons.mp haccepted
    obtain ⟨contexts2, hinner, haccepted⟩ := accepted_append.mp haccepted
    rw [accepted_cons_of_no_ref (by rw [hendif]; decide) (by rw [hendif]; decide)] at haccepted
    obtain ⟨elemRef, isConcat, hcondition⟩ := refer_if hif hrefer
    obtain ⟨loader1, hget, hafter⟩ := getToken_cons h
    have hat1 : loader1.At (inner ++ endifToken :: (tokens ++ post)) := by simpa using hafter.at
    obtain ⟨ifSequence, loader2, hload, hat2⟩ := ihinner hlengths.1 hat1
      (fun token rest heq => (List.cons.inj heq).1 ▸ Or.inr hendif) hinner
    obtain ⟨loader3, hget3, hafter3⟩ := getToken_cons hat2
    obtain ⟨loader4, hunget, hat4⟩ := ungetToken_eq hafter3
    obtain ⟨loader5, hload5, hat5⟩ := loadEndif_eq hat4 hendif
    obtain ⟨elems, loader', hrest, hat⟩ := ihtokens hlengths.2 hat5 hstops haccepted
    have hloadIf : loadIf (loadSequence methods n) elemRef isConcat contexts1 loader1 =
        .ok (.ifEndif elemRef isConcat ifSequence, contexts2, loader5) := by
      simp only [loadIf, hload, ok_bind, hget3, tokenName, hendif, hunget, hload5]
      rfl
    rw [loadSequence]
    simp only [hget, ok_bind, hif, hcondition, hloadIf, hrest]
    exact ⟨_, loader', rfl, hat⟩
  | @ifElse ifToken elseToken endifToken inner inner' tokens hif _ helse _ hendif _ ihinner ihinner'
      ihtokens =>
      obtain ⟨n, rfl⟩ := Nat.exists_eq_add_one_of_ne_zero (Nat.ne_of_gt (Nat.zero_lt_of_lt hlength))
      have hlengths : inner.length < n ∧ inner'.length < n ∧ tokens.length < n := by
        simp only [List.length_cons, List.length_append] at hlength
        omega
      obtain ⟨contexts1, hrefer, haccepted⟩ := accepted_cons.mp haccepted
      obtain ⟨contexts2, hinner, haccepted⟩ := accepted_append.mp haccepted
      rw [accepted_cons_of_no_ref (by rw [helse]; decide) (by rw [helse]; decide)] at haccepted
      obtain ⟨contexts3, hinner', haccepted⟩ := accepted_append.mp haccepted
      rw [accepted_cons_of_no_ref (by rw [hendif]; decide) (by rw [hendif]; decide)] at haccepted
      obtain ⟨elemRef, isConcat, hcondition⟩ := refer_if hif hrefer
      obtain ⟨loader1, hget, hafter⟩ := getToken_cons h
      have hat1 : loader1.At (inner ++ elseToken :: (inner' ++ endifToken :: (tokens ++ post))) := by
        simpa using hafter.at
      obtain ⟨ifSequence, loader2, hload, hat2⟩ := ihinner hlengths.1 hat1
        (fun token rest heq => (List.cons.inj heq).1 ▸ Or.inl helse) hinner
      obtain ⟨loader3, hget3, hafter3⟩ := getToken_cons hat2
      obtain ⟨elseSequence, loader4, hload4, hat4⟩ := ihinner' hlengths.2.1 hafter3.at
        (fun token rest heq => (List.cons.inj heq).1 ▸ Or.inr hendif) hinner'
      obtain ⟨loader5, hload5, hat5⟩ := loadEndif_eq hat4 hendif
      obtain ⟨elems, loader', hrest, hat⟩ := ihtokens hlengths.2.2 hat5 hstops haccepted
      have hloadIf : loadIf (loadSequence methods n) elemRef isConcat contexts1 loader1 =
          .ok (.ifElse elemRef isConcat ifSequence elseSequence, contexts3, loader5) := by
        simp only [loadIf, hload, ok_bind, hget3, tokenName, helse, if_true, hload4, hload5]
        rfl
      rw [loadSequence]
      simp only [hget, ok_bind, hif, hcondition, hloadIf, hrest]
      exact ⟨_, loader', rfl, hat⟩

end Loads

def InTime {α : Type} (x : Except LoadError α) : Prop := x ≠ .error .outOfFuel

section InTime

theorem InTime.ok (a : α) : InTime (.ok a) := fun h => (by cases h)

theorem InTime.bind {x : Except LoadError α} {f : α → Except LoadError β} (hx : InTime x)
    (hf : ∀ a, x = .ok a → InTime (f a)) : InTime (x >>= f) := by
  intro h
  rcases bind_eq_error h with h | ⟨a, ha, h⟩
  · exact hx h
  · exact hf a ha h

theorem inTime_getElemRef (refName : CString) (position : Position) (value : CString) :
    InTime (getElemRef methods refName position value) := by
  intro h
  rw [getElemRef] at h
  split at h <;> cases h

theorem inTime_adjustUnless (isJoin : Bool) (contexts : Contexts) (elemRef : ElemRef) :
    InTime (adjustUnless methods isJoin contexts elemRef) := by
  intro h
  simp only [adjustUnless, adjustBaseContext] at h
  split_ifs at h
  cases h

theorem inTime_loadCondition : InTime (loadCondition methods contexts token) :=
  (inTime_getElemRef _ _ _).bind fun _ _ => (inTime_adjustUnless _ _ _).bind fun _ _ => .ok _

theorem inTime_loadRef : InTime (loadRef methods contexts token) :=
  (inTime_getElemRef _ _ _).bind fun _ _ => (inTime_adjustUnless _ _ _).bind fun _ _ => .ok _

theorem inTime_tokenName (token : Option Token) : InTime (tokenName token) := by
  intro h
  cases token <;> cases h

theorem inTime_ungetToken (loader : Loader) : InTime loader.ungetToken := by
  intro h
  rw [Loader.ungetToken] at h
  split_ifs at h
  cases h

theorem inTime_getToken (h : loader.At tokens) : InTime loader.getToken := by
  cases tokens with
  | nil =>
    obtain ⟨loader', hget, -⟩ := getToken_nil h
    rw [hget]
    exact .ok _
  | cons token tokens =>
    obtain ⟨loader', hget, -⟩ := getToken_cons h
    rw [hget]
    exact .ok _

theorem inTime_loadEndif (h : loader.At tokens) : InTime (loadEndif loader) := by
  refine (inTime_getToken h).bind fun r _ => (inTime_tokenName r.1).bind fun name _ => ?_
  split_ifs
  · intro herror
    cases herror
  · exact .ok _

theorem inTime_loadSequence {n : Nat} (h : loader.At tokens) (hlength : tokens.length < n) :
    InTime (loadSequence methods n contexts loader) := by
  induction n generalizing contexts tokens loader with
  | zero => omega
  | succ n ih =>
    rw [loadSequence]
    cases tokens with
    | nil =>
      obtain ⟨loader1, hget, -⟩ := getToken_nil h
      simp only [hget, ok_bind]
      exact .ok _
    | cons token tokens =>
      obtain ⟨loader1, hget, hafter⟩ := getToken_cons h
      have hn : tokens.length < n := Nat.lt_of_succ_lt_succ hlength
      simp only [hget, ok_bind]
      cases token.name with
      | textSentence => exact (ih hafter.at hn).bind fun _ _ => .ok _
      | elseSentence
      | endifSentence => exact (inTime_ungetToken _).bind fun _ _ => .ok _
      | refSentence =>
        exact inTime_loadRef.bind fun _ _ => (ih hafter.at hn).bind fun _ _ => .ok _
      | ifSentence =>
        refine inTime_loadCondition.bind fun ⟨elemRef, isConcat, contexts1⟩ _ =>
          InTime.bind ?_ fun ⟨elem, contexts2, loader2⟩ hif => ?_
        · refine (ih hafter.at hn).bind fun ⟨ifSequence, contexts2, loader2⟩ hload => ?_
          obtain ⟨rest, hat, ⟨pre, hpre, -⟩, -⟩ := loadSequence_ok hafter.at hload
          have hrest : rest.length < n := by
            rw [hpre, List.length_append] at hn
            omega
          refine (inTime_getToken hat).bind fun ⟨token', loader3⟩ hget3 =>
            (inTime_tokenName token').bind fun name hname => ?_
          cases rest with
          | nil =>
            obtain ⟨_, hnil, -⟩ := getToken_nil hat
            rw [hget3] at hnil
            cases hnil
            cases hname
          | cons token'' rest =>
            obtain ⟨_, hcons, hafter3⟩ := getToken_cons hat
            rw [hget3] at hcons
            cases hcons
            simp only
            split_ifs
            · refine (ih hafter3.at (Nat.lt_of_succ_lt hrest)).bind
                fun ⟨elseSequence, contexts3, loader4⟩ hload4 => ?_
              obtain ⟨rest', hat', -⟩ := loadSequence_ok hafter3.at hload4
              exact (inTime_loadEndif hat').bind fun _ _ => .ok _
            · refine (inTime_ungetToken _).bind fun loader4 hunget => ?_
              obtain ⟨_, hunget', hat4⟩ := ungetToken_eq hafter3
              rw [hunget] at hunget'
              cases hunget'
              exact (inTime_loadEndif hat4).bind fun _ _ => .ok _
        · obtain ⟨rest, hat, ⟨pre, hpre, -⟩⟩ :=
            loadIf_ok (fun _ _ _ _ _ _ => loadSequence_ok) hafter.at hif
          have hrest : rest.length < n := by
            rw [hpre, List.length_append] at hn
            omega
          exact (ih hat hrest).bind fun _ _ => .ok _

end InTime

section Templates

variable (methods) (filename text joinContext : CString)

def fileTokens : List Token := (Loader.ofFile filename text).scanner.tokens

/--
The program ends with an error, or all tokens are in the tree; the tokens make up the text, and
directives are tokens of their own.
-/
structure LosesNothing : Prop where
  loaded : (∃ e, e ≠ .outOfFuel ∧ load methods filename text joinContext = .error e) ∨
    ∃ elems, load methods filename text joinContext = .ok elems ∧
      writtenSequence elems = (fileTokens filename text).map Token.written
  values : (fileTokens filename text).flatMap Token.value = text
  directives : DirectivesFound (fileTokens filename text) text

/-- A directive `else` or `endif` outside of any `if` is reached. -/
def StrayDirective : Prop :=
  ∃ pre token post contexts, fileTokens filename text = pre ++ token :: post ∧ WellNested pre ∧
    token.IsStop ∧ Accepted methods ⟨joinContext, joinContext⟩ pre contexts

theorem ofFile_at : (Loader.ofFile filename text).At (fileTokens filename text) :=
  ⟨rfl, fun h => (by cases h)⟩

theorem fileTokens_length_le : (fileTokens filename text).length ≤ text.length := by
  have hle : ∀ n scanner, (tokensFrom n scanner).length ≤ n := by
    intro n
    induction n with
    | zero => exact fun _ => le_refl 0
    | succ n ih =>
      intro scanner
      rw [tokensFrom]
      split
      · exact Nat.succ_le_succ (ih _)
      · exact Nat.zero_le _
  exact hle _ _

theorem load_ok {elems : List ASTElem} (h : load methods filename text joinContext = .ok elems) :
    ∃ contexts rest, Loaded methods ⟨joinContext, joinContext⟩ (fileTokens filename text) elems
      contexts rest := by
  rw [load] at h
  obtain ⟨⟨elems', contexts, loader⟩, hload, h⟩ := bind_eq_ok h
  cases h
  obtain ⟨rest, -, hloaded⟩ := loadSequence_ok (ofFile_at filename text) hload
  exact ⟨contexts, rest, hloaded⟩

/-- No token is lost exactly for texts without a directive that no sequence takes. -/
theorem losesNothing_iff :
    LosesNothing methods filename text joinContext ↔
      ¬ StrayDirective methods filename text joinContext := by
  constructor
  · rintro ⟨hloaded, -, -⟩ ⟨pre, token, post, contexts, htokens, hnested, hstop, haccepted⟩
    -- the loader stops before the directive
    have hlength : pre.length < text.length + 1 := by
      have hle := fileTokens_length_le filename text
      rw [htokens, List.length_append, List.length_cons] at hle
      omega
    have hat := ofFile_at filename text
    rw [htokens] at hat
    have hstops : Stops (token :: post) := fun token' rest heq => (List.cons.inj heq).1 ▸ hstop
    obtain ⟨elems, loader, hload, hpost⟩ :=
      loadSequence_of_wellNested hnested hlength hat hstops haccepted
    obtain ⟨rest, hrest, ⟨pre', hpre', -, hwritten, -⟩, -⟩ := loadSequence_ok hat hload
    have hall : load methods filename text joinContext = .ok elems := by
      rw [load, hload]
      rfl
    have hcons : rest = token :: post := hrest.pending.symm.trans hpost.pending
    rcases hloaded with ⟨e, -, herror⟩ | ⟨elems', hok, hexact⟩
    · rw [hall] at herror
      cases herror
    · rw [hall] at hok
      cases hok
      have hlengths := congrArg List.length (hwritten.symm.trans hexact)
      rw [htokens, hpre', hcons] at hlengths
      simp at hlengths
  · intro hstray
    refine ⟨?_, flatMap_value_tokens _, directivesFound _⟩
    cases hload : load methods filename text joinContext with
    | error e =>
      refine Or.inl ⟨e, ?_, rfl⟩
      rintro rfl
      have hlength := Nat.lt_succ_of_le (fileTokens_length_le filename text)
      exact ((inTime_loadSequence (ofFile_at filename text) hlength).bind fun _ _ => .ok _) hload
    | ok elems =>
      refine Or.inr ⟨elems, rfl, ?_⟩
      obtain ⟨contexts, rest, ⟨pre, htokens, hnested, hwritten, haccepted⟩, hstops⟩ :=
        load_ok methods filename text joinContext hload
      cases rest with
      | nil => rw [htokens, List.append_nil, hwritten]
      | cons token post =>
        exact absurd ⟨pre, token, post, contexts, htokens, hnested, hstops token post rfl,
          haccepted⟩ hstray

/-- The text after the directive is not in the tree. -/
theorem not_losesNothing_stray_endif :
    ¬ LosesNothing ⟨fun _ => some none, id, fun _ => none⟩ ['t'] "a<$endif$>b".toList [] := by
  rintro ⟨hloaded, -, -⟩
  have hload : load ⟨fun _ => some none, id, fun _ => none⟩ ['t'] "a<$endif$>b".toList [] =
      .ok [.text ⟨['t'], 1, 0⟩ ['a'] ['a']] := rfl
  rw [hload] at hloaded
  rcases hloaded with ⟨e, -, herror⟩ | ⟨elems, hok, hwritten⟩
  · cases herror
  · cases hok
    exact absurd (congrArg List.length hwritten) (by decide)

end Templates

end TemplateConverter
end KedrAux
