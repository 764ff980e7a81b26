import KedrAux.Lib.DottedNames
import KedrAux.TemplateConverter.JinjaLoops

/-!
# Places of parameters

A parameter below nested sequences stands for many values.  Each place is described by the elements
to which the iterators of the sequences are bound; the name that is written for the parameter has
the value of the place in every template whose iterators are bound so.
-/

namespace KedrAux
namespace TemplateConverter
namespace Loops

def lastComponent (paramName : CString) : CString := DottedNames.last '.' paramName

/-- The parameter and the parameters that contain it, from the inside. -/
def contextsFrom : Nat → CString → List CString
  | 0, _ => []
  | n + 1, context => if context = [] then [] else context :: contextsFrom n (parentParam context)

def contextsOf (context : CString) : List CString := contextsFrom context.length context

variable {context : CString}

theorem parentParam_length_lt (h : context ≠ []) : (parentParam context).length < context.length :=
  DottedNames.length_parent_lt h

theorem contextsFrom_eq (n : Nat) (context : CString) (hn : context.length ≤ n) :
    contextsFrom n context = contextsOf context := by
  induction n using Nat.strong_induction_on generalizing context with
  | _ n ih =>
    by_cases hnil : context = []
    · subst hnil
      cases n <;> simp [contextsOf, contextsFrom]
    · have hlt := parentParam_length_lt hnil
      obtain ⟨k, hk⟩ : ∃ k, context.length = k + 1 := ⟨context.length - 1, by omega⟩
      obtain ⟨n', rfl⟩ : ∃ n', n = n' + 1 := ⟨n - 1, by omega⟩
      rw [contextsOf, hk, contextsFrom, contextsFrom, if_neg hnil, if_neg hnil,
        ih n' (by omega) _ (by omega)]
      by_cases hlast : k = n'
      · rw [hlast, ih n' (by omega) _ (by omega)]
      · rw [ih k (by omega) _ (by omega)]

@[simp] theorem contextsOf_nil : contextsOf [] = [] := rfl

theorem contextsOf_cons (h : context ≠ []) :
    contextsOf context = context :: contextsOf (parentParam context) := by
  have hlt := parentParam_length_lt h
  obtain ⟨k, hk⟩ : ∃ k, context.length = k + 1 := ⟨context.length - 1, by omega⟩
  rw [contextsOf, hk, contextsFrom, if_neg h, contextsFrom_eq k _ (by omega)]

section Values

variable (methods : Methods) (joinContext : CString) (env : Env)

/--
What a context stands for in a template: the element to which its iterator is bound, or a member
of the object around it.
-/
def objectOf : List CString → Option Data
  | [] => some (.object env)
  | context :: contexts =>
    match methods.getSequenceIterator context with
    | some i => env.lookup i
    | none => (objectOf contexts).bind (Data.member (lastComponent context))

/-- The places to which one place of the parent leads: one, or one for each element. -/
def placesIn (context : CString) (place : Env × Data) : Option (List (Env × Data)) := do
  let d ← place.2.member (lastComponent context)
  match methods.getSequenceIterator context with
  | none => return [(place.1, d)]
  | some i => return (← d.elements).map fun e => ((i, e) :: place.1, e)

/-- All places of a context below the join context: the variables there and the value. -/
def placesFrom : List CString → Option (List (Env × Data))
  | [] => if joinContext = [] then some [(env, .object env)] else none
  | context :: contexts =>
    if context = joinContext then
      (objectOf methods env (context :: contexts)).map fun d => [(env, d)]
    else do
      let places ← placesFrom contexts
      let inner ← places.mapM (placesIn methods context)
      return inner.flatten

def places (context : CString) : Option (List (Env × Data)) :=
  placesFrom methods joinContext env (contextsOf context)

/-- What a join of a parameter or a template stands for, from the first element to the last one. -/
def joinedTexts (includes : CString → Env → CString) : ElemRef → Option (List CString)
  | .paramRef paramName _ _ => do
      let found ← places methods joinContext env paramName
      found.mapM fun place => place.2.printed
  | .templateRef template _ _ => do
      let found ← places methods joinContext env template.baseContext
      return found.map fun place => includes template.templateName place.1

end Values

/-- Names that jinja2 reads as they are meant, for the parameter and the iterators around it. -/
structure Named (methods : Methods) (paramName : CString) : Prop where
  isVariable : isVariableName paramName = true
  notLoop : paramName.takeWhile (· ≠ '.') ≠ loopName
  visible : ∀ name ∈ (paramName.splitOn '.').tail, isHidden name = false
  iterators : ∀ context i, context = paramName ∨ isSubparam paramName context = true →
    methods.getSequenceIterator context = some i →
      isVariableName i = true ∧ '.' ∉ i ∧ i ≠ loopName

section Names

variable {methods : Methods} {paramName : CString}

theorem isVariableName_ne_nil {name : CString} (h : isVariableName name = true) : name ≠ [] := by
  rintro rfl
  simp [isVariableName, startsIdentifier] at h

theorem takeWhile_append_cons (a b : CString) :
    (a ++ '.' :: b).takeWhile (· ≠ '.') = a.takeWhile (· ≠ '.') := by
  induction a with
  | nil => simp
  | cons c a ih =>
    by_cases hc : c = '.'
    · simp [hc]
    · rw [List.cons_append, List.takeWhile_cons_of_pos (by simpa using hc),
        List.takeWhile_cons_of_pos (by simpa using hc), ih]

theorem isVariableName_append (a : CString) {b : CString} (hb : '.' ∉ b) :
    isVariableName (a ++ '.' :: b) = true ↔
      isVariableName a = true ∧ b.all isName = true ∧ startsIdentifier b = true := by
  have hdot : isName '.' = true := rfl
  simp only [isVariableName, DottedNames.splitOn_append_cons a hb, takeWhile_append_cons,
    List.all_append, List.all_cons, List.all_nil, hdot, Bool.true_and, Bool.and_true,
    Bool.and_eq_true]
  tauto

theorem Named.parent (h : Named methods paramName) (hne : parentParam paramName ≠ []) :
    paramName = parentParam paramName ++ '.' :: lastComponent paramName ∧
      '.' ∉ lastComponent paramName ∧ isHidden (lastComponent paramName) = false ∧
      Named methods (parentParam paramName) := by
  have hmem : '.' ∈ paramName := by
    by_contra hnot
    exact hne (DottedNames.parent_last_of_notMem hnot).1
  obtain ⟨b, hname, hlast, hb⟩ := DottedNames.exists_last hmem
  have hparent : DottedNames.parent '.' paramName = parentParam paramName := rfl
  rw [hparent] at hname
  have hlast' : lastComponent paramName = b := hlast
  rw [hlast']
  have hvariable := h.isVariable
  have hnotLoop := h.notLoop
  have hvisible := h.visible
  rw [hname] at hvariable hnotLoop hvisible
  rw [takeWhile_append_cons] at hnotLoop
  rw [DottedNames.splitOn_append_cons _ hb,
    List.tail_append_of_ne_nil (List.splitOn_ne_nil _ _)] at hvisible
  refine ⟨hname, hb, hvisible b (by simp), ⟨((isVariableName_append _ hb).mp hvariable).1,
    hnotLoop, fun name hmem => hvisible name (List.mem_append_left _ hmem), ?_⟩⟩
  rintro context i (rfl | hsub) hi
  · refine h.iterators _ i (.inr ?_) hi
    rw [isSubparam, if_neg hne, List.isPrefixOf_iff_prefix]
    exact ⟨b, by rw [List.append_assoc, List.singleton_append, ← hname]⟩
  · refine h.iterators _ i (.inr ?_) hi
    rw [isSubparam] at hsub ⊢
    split_ifs at hsub ⊢ with hcontext
    · rfl
    · rw [List.isPrefixOf_iff_prefix] at hsub ⊢
      refine hsub.trans ?_
      conv_rhs => rw [hname]
      exact List.prefix_append _ _

theorem Named.single (h : Named methods paramName) (hnil : parentParam paramName = []) :
    '.' ∉ paramName ∧ lastComponent paramName = paramName := by
  have hnot : '.' ∉ paramName := by
    intro hmem
    obtain ⟨b, hname, -, hb⟩ := DottedNames.exists_last hmem
    have hparent : DottedNames.parent '.' paramName = [] := hnil
    have hvariable := h.isVariable
    rw [hname, hparent] at hvariable
    simp [isVariableName, List.splitOn_cons_eq_if_modifyHead, startsIdentifier] at hvariable
  exact ⟨hnot, (DottedNames.parent_last_of_notMem hnot).2⟩

theorem relativeTo_append (methods : Methods) (a t : CString) (n k : Nat) (context : CString)
    (hn : context.length ≤ n) (hk : context.length ≤ k) (ha : context.length ≤ a.length) :
    relativeTo methods (a ++ t) n context = relativeTo methods a k context ++ t := by
  induction n generalizing k context with
  | zero =>
    have hnil := List.eq_nil_of_length_eq_zero (Nat.le_zero.mp hn)
    subst hnil
    cases k <;> simp [relativeTo]
  | succ n ih =>
    by_cases hnil : context = []
    · subst hnil
      cases k <;> simp [relativeTo]
    · have hlt := parentParam_length_lt hnil
      obtain ⟨k, rfl⟩ : ∃ k', k = k' + 1 := ⟨k - 1, by omega⟩
      rw [relativeTo, relativeTo, if_neg hnil, if_neg hnil]
      cases methods.getSequenceIterator context with
      | some i => simp [List.drop_append_of_le_length ha]
      | none => exact ih k _ (by omega) (by omega) (by omega)

def objectName (methods : Methods) (context : CString) : CString :=
  (methods.getSequenceIterator context).getD (relName methods context)

theorem relName_of_single (hnil : parentParam paramName = []) :
    relName methods paramName = paramName := by
  rw [relName, hnil]
  cases paramName.length <;> simp [relativeTo]

theorem Named.relName_eq (h : Named methods paramName) (hne : parentParam paramName ≠ []) :
    relName methods paramName =
      objectName methods (parentParam paramName) ++ '.' :: lastComponent paramName := by
  obtain ⟨hname, -, -, -⟩ := h.parent hne
  generalize hparent : parentParam paramName = parent at *
  generalize lastComponent paramName = last at *
  have hlt := parentParam_length_lt hne
  have hlength : paramName.length = parent.length + last.length + 1 := by
    rw [hname, List.length_append, List.length_cons]
    omega
  rw [relName, hparent, hlength, relativeTo, if_neg hne, objectName]
  cases methods.getSequenceIterator parent with
  | some i => simp [hname]
  | none =>
    simp only [Option.getD_none]
    conv_lhs => rw [hname]
    exact relativeTo_append methods parent _ _ _ _ (by omega) (by omega) (by omega)

theorem Named.objectName_variable (h : Named methods paramName) :
    isVariableName (relName methods paramName) = true ∧
      isVariableName (objectName methods paramName) = true := by
  induction hn : paramName.length using Nat.strong_induction_on generalizing paramName with
  | _ n ih =>
    have hrel : isVariableName (relName methods paramName) = true := by
      by_cases hnil : parentParam paramName = []
      · rw [relName_of_single hnil]
        exact h.isVariable
      · obtain ⟨hname, hlast, -, hparent⟩ := h.parent hnil
        have hlt := parentParam_length_lt (isVariableName_ne_nil h.isVariable)
        have hvariable := h.isVariable
        rw [hname, isVariableName_append _ hlast] at hvariable
        rw [h.relName_eq hnil, isVariableName_append _ hlast]
        exact ⟨(ih _ (by omega) hparent rfl).2, hvariable.2⟩
    refine ⟨hrel, ?_⟩
    cases hi : methods.getSequenceIterator paramName with
    | some i =>
      rw [objectName, hi]
      exact (h.iterators _ i (.inl rfl) hi).1
    | none =>
      rw [objectName, hi]
      exact hrel

end Names

section NameValues

variable {methods : Methods} {paramName : CString}

def nameValue (env : Env) (name : CString) : Option Data := evalPath env (name.splitOn '.')

theorem nameValue_append (env : Env) (a : CString) {b : CString} (hb : '.' ∉ b) :
    nameValue env (a ++ '.' :: b) = (nameValue env a).bind fun d => field d b := by
  rw [nameValue, nameValue, DottedNames.splitOn_append_cons a hb]
  obtain ⟨first, names, hsplit⟩ := List.exists_cons_of_ne_nil (List.splitOn_ne_nil '.' a)
  rw [hsplit, List.cons_append, evalPath, evalPath]
  split_ifs
  · rfl
  · cases env.lookup first with
    | none => rfl
    | some d => simp [List.foldlM_append]

theorem nameValue_single (env : Env) {name : CString} (hname : '.' ∉ name) (hloop : name ≠ loopName) :
    nameValue env name = env.lookup name := by
  rw [nameValue, List.splitOn_eq_singleton hname, evalPath, if_neg hloop]
  cases env.lookup name <;> rfl

theorem Named.nameValue_eq (h : Named methods paramName) (env : Env) :
    nameValue env (relName methods paramName) =
        (objectOf methods env (contextsOf (parentParam paramName))).bind
          (Data.member (lastComponent paramName)) ∧
      nameValue env (objectName methods paramName) =
        objectOf methods env (contextsOf paramName) := by
  induction hn : paramName.length using Nat.strong_induction_on generalizing paramName with
  | _ n ih =>
    have hnotnil := isVariableName_ne_nil h.isVariable
    have hrel : nameValue env (relName methods paramName) =
        (objectOf methods env (contextsOf (parentParam paramName))).bind
          (Data.member (lastComponent paramName)) := by
      by_cases hnil : parentParam paramName = []
      · obtain ⟨hsingle, hlast⟩ := h.single hnil
        have hloop := h.notLoop
        rw [List.takeWhile_eq_self_iff.mpr
          (fun c hc => by simpa using fun heq : c = '.' => hsingle (heq ▸ hc))] at hloop
        rw [relName_of_single hnil, nameValue_single env hsingle hloop, hnil, contextsOf_nil,
          objectOf, Option.bind_some, hlast]
        rfl
      · obtain ⟨-, hlast, hvisible, hparent⟩ := h.parent hnil
        have hlt := parentParam_length_lt hnotnil
        rw [h.relName_eq hnil, nameValue_append env _ hlast,
          (ih _ (by omega) hparent rfl).2]
        simp only [field, hvisible, Bool.false_eq_true, if_false]
    refine ⟨hrel, ?_⟩
    rw [contextsOf_cons hnotnil, objectOf]
    cases hi : methods.getSequenceIterator paramName with
    | some i =>
      obtain ⟨-, hpoint, hloop⟩ := h.iterators _ i (.inl rfl) hi
      simp only [objectName, hi, Option.getD_some]
      exact nameValue_single env hpoint hloop
    | none =>
      simp only [objectName, hi, Option.getD_none]
      exact hrel

end NameValues

section Sequences

variable {methods : Methods} {joinContext : CString} {env : Env}

inductive Below (methods : Methods) (joinContext : CString) : CString → List CString → Prop
  | join : Below methods joinContext joinContext []
  | single
      {context : CString}
      {path : List CString}
      (hjoin : context ≠ joinContext)
      (hne : context ≠ [])
      (hi : methods.getSequenceIterator context = none)
      (hbelow : Below methods joinContext (parentParam context) path) :
      Below methods joinContext context path
  | sequence
      {context : CString}
      {path : List CString}
      {i : CString}
      (hjoin : context ≠ joinContext)
      (hne : context ≠ [])
      (hi : methods.getSequenceIterator context = some i)
      (hbelow : Below methods joinContext (parentParam context) path) :
      Below methods joinContext context (context :: path)

theorem below_of_contextPathFrom (n : Nat) (context : CString) (path : List CString)
    (hn : context.length ≤ n)
    (h : contextPathFrom methods joinContext n context = (path, joinContext)) :
    Below methods joinContext context path := by
  induction n generalizing context path with
  | zero =>
    rw [contextPathFrom] at h
    obtain ⟨rfl, rfl⟩ := Prod.ext_iff.mp h
    exact .join
  | succ n ih =>
    rw [contextPathFrom] at h
    split_ifs at h with hlength hsome
    · obtain ⟨hpath, hleft⟩ := Prod.ext_iff.mp h
      simp only at hpath hleft
      have hne : context ≠ [] := by
        rintro rfl
        exact absurd hlength (Nat.not_lt_zero _)
      have hlt := parentParam_length_lt hne
      obtain ⟨i, hi⟩ := Option.isSome_iff_exists.mp hsome
      rw [← hpath]
      refine .sequence (fun heq => ?_) hne hi (ih _ _ (by omega) (Prod.ext rfl hleft))
      rw [heq] at hlength
      exact absurd hlength (Nat.lt_irrefl _)
    · have hne : context ≠ [] := by
        rintro rfl
        exact absurd hlength (Nat.not_lt_zero _)
      have hlt := parentParam_length_lt hne
      refine .single (fun heq => ?_) hne (by simpa using hsome) (ih _ _ (by omega) h)
      rw [heq] at hlength
      exact absurd hlength (Nat.lt_irrefl _)
    · obtain ⟨rfl, rfl⟩ := Prod.ext_iff.mp h
      exact .join

theorem places_join :
    places methods joinContext env joinContext =
      (objectOf methods env (contextsOf joinContext)).map fun d => [(env, d)] := by
  by_cases hnil : joinContext = []
  · subst hnil
    rfl
  · rw [places, contextsOf_cons hnil, placesFrom, if_pos rfl]

variable {context : CString} {found : List (Env × Data)} {path : List CString}

theorem places_parent (hjoin : context ≠ joinContext) (hne : context ≠ []) :
    places methods joinContext env context =
      (places methods joinContext env (parentParam context)).bind fun found =>
        (found.mapM (placesIn methods context)).map List.flatten := by
  rw [places, contextsOf_cons hne, placesFrom, if_neg hjoin, ← places]
  cases places methods joinContext env (parentParam context) with
  | none => rfl
  | some found => cases hinner : found.mapM (placesIn methods context) <;> simp [hinner]

theorem forall₂_of_mapM {α β : Type} {f : α → Option β} {as : List α} {bs : List β}
    (h : as.mapM f = some bs) : List.Forall₂ (fun a b => f a = some b) as bs := by
  induction as generalizing bs with
  | nil =>
    cases h
    exact .nil
  | cons a as ih =>
    rw [List.mapM_cons] at h
    obtain ⟨b, hb, h⟩ := Option.bind_eq_some_iff.mp h
    obtain ⟨bs', hbs, h⟩ := Option.bind_eq_some_iff.mp h
    cases h
    exact .cons hb (ih hbs)

theorem exists_places_parent (hjoin : context ≠ joinContext) (hne : context ≠ [])
    (h : places methods joinContext env context = some found) :
    ∃ outer inner, places methods joinContext env (parentParam context) = some outer ∧
      List.Forall₂ (fun place next => placesIn methods context place = some next) outer inner ∧
      found = inner.flatten := by
  rw [places_parent hjoin hne] at h
  obtain ⟨outer, houter, h⟩ := Option.bind_eq_some_iff.mp h
  obtain ⟨inner, hinner, rfl⟩ := Option.map_eq_some_iff.mp h
  exact ⟨outer, inner, houter, forall₂_of_mapM hinner, rfl⟩

theorem mem_left_of_forall₂ {α β : Type} {R : α → β → Prop} {as : List α} {bs : List β}
    (h : List.Forall₂ R as bs) {b : β} (hb : b ∈ bs) : ∃ a ∈ as, R a b := by
  induction h with
  | nil => cases hb
  | cons hab _ ih =>
    rcases List.mem_cons.mp hb with rfl | hb
    · exact ⟨_, List.mem_cons_self, hab⟩
    · obtain ⟨a, ha, hR⟩ := ih hb
      exact ⟨a, List.mem_cons_of_mem _ ha, hR⟩

theorem placesIn_none (hi : methods.getSequenceIterator context = none) (place : Env × Data) :
    placesIn methods context place =
      (place.2.member (lastComponent context)).map fun d => [(place.1, d)] := by
  rw [placesIn, hi]
  cases place.2.member (lastComponent context) <;> rfl

variable {i sequence : CString} {place : Env × Data}

theorem placesIn_some (hi : methods.getSequenceIterator context = some i) (place : Env × Data) :
    placesIn methods context place =
      ((place.2.member (lastComponent context)).bind Data.elements).map fun elems =>
        elems.map fun e => ((i, e) :: place.1, e) := by
  rw [placesIn, hi]
  cases place.2.member (lastComponent context) with
  | none => rfl
  | some d => cases hd : d.elements <;> simp [hd]

theorem objectOf_of_mem (hbelow : Below methods joinContext context path)
    (h : places methods joinContext env context = some found) (hplace : place ∈ found) :
    objectOf methods place.1 (contextsOf context) = some place.2 := by
  induction hbelow generalizing found place with
  | join =>
    rw [places_join] at h
    obtain ⟨d, hd, rfl⟩ := Option.map_eq_some_iff.mp h
    rw [List.mem_singleton.mp hplace]
    exact hd
  | @single context path hjoin hne hi _ ih =>
    obtain ⟨outer, inner, houter, hinner, rfl⟩ := exists_places_parent hjoin hne h
    obtain ⟨next, hnext, hmem⟩ := List.mem_flatten.mp hplace
    obtain ⟨place0, hplace0, hin⟩ := mem_left_of_forall₂ hinner hnext
    rw [placesIn_none hi] at hin
    obtain ⟨d, hd, rfl⟩ := Option.map_eq_some_iff.mp hin
    rw [List.mem_singleton.mp hmem, contextsOf_cons hne, objectOf, hi]
    simp only [ih houter hplace0, Option.bind_some, hd]
  | @sequence context path i hjoin hne hi _ ih =>
    obtain ⟨outer, inner, houter, hinner, rfl⟩ := exists_places_parent hjoin hne h
    obtain ⟨next, hnext, hmem⟩ := List.mem_flatten.mp hplace
    obtain ⟨place0, hplace0, hin⟩ := mem_left_of_forall₂ hinner hnext
    rw [placesIn_some hi] at hin
    obtain ⟨elems, -, rfl⟩ := Option.map_eq_some_iff.mp hin
    obtain ⟨e, -, rfl⟩ := List.mem_map.mp hmem
    rw [contextsOf_cons hne, objectOf, hi]
    simp only [List.lookup_cons_self]

theorem elements_eq_some {d : Data} {elems : List Data} (h : d.elements = some elems) :
    d = .list elems := by
  cases d <;> simp_all [Data.elements]

theorem Named.nameValue_sequence {outer : List (Env × Data)} (hnamed : Named methods context)
    (hi : methods.getSequenceIterator context = some i)
    (hbelow : Below methods joinContext (parentParam context) path)
    (houter : places methods joinContext env (parentParam context) = some outer)
    (hplace : place ∈ outer) {next : List (Env × Data)}
    (hnext : placesIn methods context place = some next) :
    ∃ elems, nameValue place.1 (relName methods context) = some (.list elems) ∧
      next = elems.map fun e => ((i, e) :: place.1, e) := by
  rw [placesIn_some hi] at hnext
  obtain ⟨elems, helems, rfl⟩ := Option.map_eq_some_iff.mp hnext
  obtain ⟨d, hd, hlist⟩ := Option.bind_eq_some_iff.mp helems
  refine ⟨elems, ?_, rfl⟩
  rw [(hnamed.nameValue_eq place.1).1, objectOf_of_mem hbelow houter hplace, Option.bind_some, hd,
    elements_eq_some hlist]

theorem places_of_no_sequence (hbelow : Below methods joinContext context [])
    (h : places methods joinContext env context = some found) :
    ∃ d, found = [(env, d)] := by
  generalize hpath : ([] : List CString) = path at hbelow
  induction hbelow generalizing found with
  | join =>
    rw [places_join] at h
    obtain ⟨d, -, rfl⟩ := Option.map_eq_some_iff.mp h
    exact ⟨d, rfl⟩
  | single hjoin hne hi _ ih =>
    obtain ⟨outer, inner, houter, hinner, rfl⟩ := exists_places_parent hjoin hne h
    obtain ⟨d0, rfl⟩ := ih houter hpath
    cases hinner with
    | @cons _ next _ _ hin hrest =>
      cases hrest
      rw [placesIn_none hi] at hin
      obtain ⟨d, -, rfl⟩ := Option.map_eq_some_iff.mp hin
      exact ⟨d, rfl⟩
  | sequence => cases hpath

def memberPath (e : Data) (names : List CString) : Option Data :=
  names.foldlM (fun d name => d.member name) e

/-- A place for an element of the only sequence. -/
def PlaceOf (env : Env) (i : CString) (names : List CString) (e : Data) (place : Env × Data) : Prop :=
  place.1 = (i, e) :: env ∧ memberPath e names = some place.2

def Members (sequence context : CString) (names : List CString) : Prop :=
  (context = sequence ∧ names = []) ∨
    ∃ attr, context = sequence ++ '.' :: attr ∧ names = attr.splitOn '.'

theorem Members.concat {sequence context name : CString} {names : List CString}
    (h : Members sequence context names) (hname : '.' ∉ name) :
    Members sequence (context ++ '.' :: name) (names ++ [name]) := by
  right
  rcases h with ⟨rfl, rfl⟩ | ⟨attr, rfl, rfl⟩
  · exact ⟨name, rfl, by rw [List.splitOn_eq_singleton hname, List.nil_append]⟩
  · refine ⟨attr ++ '.' :: name, ?_, ?_⟩
    · rw [List.append_assoc, List.cons_append]
    · rw [DottedNames.splitOn_append_cons attr hname]

theorem Below.parent_ne_nil (hbelow : Below methods joinContext (parentParam context) path)
    (hpath : path ≠ []) :
    parentParam context ≠ [] := by
  intro hnil
  rw [hnil] at hbelow
  cases hbelow with
  | join => exact hpath rfl
  | single _ hne => exact hne rfl
  | sequence _ hne => exact hne rfl

/-- The context is the only sequence, or what is around it has members down to it. -/
theorem Below.exists_members (hbelow : Below methods joinContext context [sequence])
    (hnamed : Named methods context) :
    ∃ names, Members sequence context names := by
  generalize hpath : [sequence] = path at hbelow
  induction hbelow with
  | join => cases hpath
  | @single context path hjoin hne hi hbelow ih =>
    obtain ⟨hname, hlast, -, hnamed'⟩ :=
      hnamed.parent (hbelow.parent_ne_nil (by rw [← hpath]; exact List.cons_ne_nil _ _))
    obtain ⟨names, hmembers⟩ := ih hnamed' hpath
    rw [hname]
    exact ⟨_, hmembers.concat hlast⟩
  | sequence =>
    cases hpath
    exact ⟨[], .inl ⟨rfl, rfl⟩⟩

theorem places_of_one_sequence (hbelow : Below methods joinContext context [sequence])
    (hnamed : Named methods context) (h : places methods joinContext env context = some found) :
    ∃ i elems names, methods.getSequenceIterator sequence = some i ∧
      nameValue env (relName methods sequence) = some (.list elems) ∧
      Members sequence context names ∧ List.Forall₂ (PlaceOf env i names) elems found := by
  generalize hpath : [sequence] = path at hbelow
  induction hbelow generalizing found with
  | join => cases hpath
  | @single context path hjoin hne hi hbelow ih =>
    obtain ⟨outer, inner, houter, hinner, rfl⟩ := exists_places_parent hjoin hne h
    obtain ⟨hname, hlast, -, hnamed'⟩ :=
      hnamed.parent (hbelow.parent_ne_nil (by rw [← hpath]; exact List.cons_ne_nil _ _))
    obtain ⟨i, elems, names, hseq, hlist, hmembers, hplaces⟩ := ih hnamed' houter hpath
    refine ⟨i, elems, names ++ [lastComponent context], hseq, hlist, ?_, ?_⟩
    · have hconcat := hmembers.concat hlast
      rwa [← hname] at hconcat
    · clear houter h hlist
      induction hplaces generalizing inner with
      | nil =>
        cases hinner
        exact .nil
      | cons hplace _ ihplaces =>
        cases hinner with
        | cons hin hrest =>
          rw [placesIn_none hi] at hin
          obtain ⟨d, hd, rfl⟩ := Option.map_eq_some_iff.mp hin
          refine .cons ⟨hplace.1, ?_⟩ (ihplaces _ hrest)
          rw [memberPath, List.foldlM_append, ← memberPath, hplace.2]
          simp [hd]
  | @sequence context path i hjoin hne hi hbelow _ =>
    cases hpath
    obtain ⟨outer, inner, houter, hinner, rfl⟩ := exists_places_parent hjoin hne h
    obtain ⟨d0, rfl⟩ := places_of_no_sequence hbelow houter
    cases hinner with
    | @cons _ next _ _ hin hrest =>
      cases hrest
      obtain ⟨elems, hlist, rfl⟩ :=
        hnamed.nameValue_sequence hi hbelow houter List.mem_cons_self hin
      refine ⟨i, elems, [], hi, hlist, .inl ⟨rfl, rfl⟩, ?_⟩
      rw [List.flatten_cons, List.flatten_nil, List.append_nil, List.forall₂_map_right_iff,
        List.forall₂_same]
      exact fun e _ => ⟨rfl, rfl⟩

theorem Named.exists_env (hnamed : Named methods context) (d : Data) :
    ∃ env, objectOf methods env (contextsOf context) = some d := by
  induction hn : context.length using Nat.strong_induction_on generalizing context d with
  | _ n ih =>
    have hne := isVariableName_ne_nil hnamed.isVariable
    have hlt := parentParam_length_lt hne
    rw [contextsOf_cons hne]
    cases hi : methods.getSequenceIterator context with
    | some i =>
      refine ⟨[(i, d)], ?_⟩
      rw [objectOf, hi]
      exact List.lookup_cons_self
    | none =>
      by_cases hparent : parentParam context = []
      · refine ⟨[(lastComponent context, d)], ?_⟩
        rw [objectOf, hi, hparent, contextsOf_nil]
        exact List.lookup_cons_self
      · obtain ⟨env, henv⟩ := ih _ (by omega) (hnamed.parent hparent).2.2.2
          (.object [(lastComponent context, d)]) rfl
        refine ⟨env, ?_⟩
        rw [objectOf, hi]
        simp only [henv, Option.bind_some]
        exact List.lookup_cons_self

theorem mapM_eq_of_forall {α β : Type} {f : α → Option β} {g : α → β} {as : List α}
    (h : ∀ a ∈ as, f a = some (g a)) : as.mapM f = some (as.map g) := by
  induction as with
  | nil => rfl
  | cons a as ih =>
    rw [List.mapM_cons, h a List.mem_cons_self, ih fun a ha => h a (List.mem_cons_of_mem _ ha)]
    rfl

theorem places_of_parent {outer : List (Env × Data)} {d : Data} {k : Nat}
    {f : Env × Data → List (Env × Data)} (hjoin : context ≠ joinContext) (hne : context ≠ [])
    (houter : places methods joinContext env (parentParam context) = some outer)
    (hstep : ∀ place ∈ outer, placesIn methods context place = some (f place))
    (hlength : ∀ place, (f place).length = k) (hvalue : ∀ place, ∀ inner ∈ f place, inner.2 = d) :
    ∃ found, places methods joinContext env context = some found ∧
      found.length = outer.length * k ∧ ∀ place ∈ found, place.2 = d := by
  refine ⟨outer.flatMap f, ?_, ?_, ?_⟩
  · rw [places_parent hjoin hne, houter, Option.bind_some, mapM_eq_of_forall hstep,
      List.flatMap_def]
    rfl
  · simp [List.length_flatMap, hlength]
  · intro place hplace
    obtain ⟨outerPlace, -, hmem⟩ := List.mem_flatMap.mp hplace
    exact hvalue outerPlace place hmem

theorem Below.exists_places (hbelow : Below methods joinContext context path)
    (hnamed : context ≠ [] → Named methods context) (d : Data)
    (hd : context = joinContext → ∃ members, d = .object members) :
    ∃ env found, places methods joinContext env context = some found ∧
      found.length = 2 ^ path.length ∧ ∀ place ∈ found, place.2 = d := by
  induction hbelow generalizing d with
  | join =>
    obtain ⟨members, rfl⟩ := hd rfl
    by_cases hnil : joinContext = []
    · subst hnil
      exact ⟨members, [(members, .object members)], rfl, rfl, by simp⟩
    · obtain ⟨env, henv⟩ := (hnamed hnil).exists_env (.object members)
      refine ⟨env, [(env, .object members)], ?_, rfl, by simp⟩
      rw [places_join, henv]
      rfl
  | @single context path hjoin hne hi _ ih =>
    obtain ⟨env, outer, houter, hlength, hvalues⟩ :=
      ih (fun hnil => ((hnamed hne).parent hnil).2.2.2) (.object [(lastComponent context, d)])
        (fun _ => ⟨_, rfl⟩)
    have hstep : ∀ place ∈ outer, placesIn methods context place = some [(place.1, d)] := by
      intro place hplace
      rw [placesIn_none hi, hvalues place hplace]
      simp [Data.member]
    obtain ⟨found, hfound, hcount, hall⟩ :=
      places_of_parent (d := d) (k := 1) hjoin hne houter hstep (fun _ => rfl) (by simp)
    exact ⟨env, found, hfound, by rw [hcount, hlength, Nat.mul_one], hall⟩
  | @sequence context path i hjoin hne hi _ ih =>
    obtain ⟨env, outer, houter, hlength, hvalues⟩ :=
      ih (fun hnil => ((hnamed hne).parent hnil).2.2.2)
        (.object [(lastComponent context, .list [d, d])]) (fun _ => ⟨_, rfl⟩)
    have hstep : ∀ place ∈ outer, placesIn methods context place =
        some [((i, d) :: place.1, d), ((i, d) :: place.1, d)] := by
      intro place hplace
      rw [placesIn_some hi, hvalues place hplace]
      simp [Data.member, Data.elements]
    obtain ⟨found, hfound, hcount, hall⟩ :=
      places_of_parent (d := d) (k := 2) hjoin hne houter hstep (fun _ => rfl) (by simp)
    exact ⟨env, found, hfound, by rw [hcount, hlength, List.length_cons, Nat.pow_succ], hall⟩

end Sequences

end Loops
end TemplateConverter
end KedrAux
