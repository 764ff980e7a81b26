import Mathlib.Data.List.Basic
import Mathlib.Tactic

/-!
# Outlines

A text of names and values is structured by the columns that the names begin at: a name belongs to
the map of the last name that begins further left, and every map has its names at one column.  A name
with the mark of an element begins a new map.
-/

namespace Outline

variable {κ : Type*}

/-- A map: its column, the last of its names and the names before it. -/
structure Level (κ : Type*) where
  column : Nat
  name : κ
  earlier : List κ
deriving DecidableEq

def Level.names (level : Level κ) : List κ := level.name :: level.earlier

/-- The names that a place of the text is below, the outermost first. -/
def chain (levels : List (Level κ)) : List κ := (levels.map Level.name).reverse

/-- The maps further left. -/
def below (column : Nat) (levels : List (Level κ)) : List (Level κ) :=
  levels.dropWhile fun level => column ≤ level.column

/-- The maps at a name; a name must not be in its map already. -/
def enter [DecidableEq κ] (elem : Bool) (column : Nat) (name : κ) (levels : List (Level κ)) :
    Option (List (Level κ)) :=
  match levels.dropWhile fun level => column < level.column with
  | [] => some [⟨column, name, []⟩]
  | level :: rest =>
    if level.column = column then
      if elem then some (⟨column, name, []⟩ :: rest)
      else if name ∈ level.names then none
      else some (⟨column, name, level.names⟩ :: rest)
    else some (⟨column, name, []⟩ :: level :: rest)

/-- Above the maps of the base there is at most one map at the column, which has the names; other
maps are further right. -/
structure At (column : Nat) (base levels : List (Level κ)) (names : List κ) : Prop where
  base_lt : ∀ level ∈ base, level.column < column
  levels_eq : ∃ extra, ∃ current : Option (Level κ), levels = extra ++ (current.toList ++ base) ∧
    (∀ level ∈ extra, column < level.column) ∧ (∀ level ∈ current, level.column = column) ∧
    names = current.elim [] Level.names

variable {column : Nat} {base levels : List (Level κ)} {names : List κ} {name : κ}

@[simp] theorem chain_cons (level : Level κ) : chain (level :: levels) = chain levels ++ [level.name] := by
  rw [chain, chain, List.map_cons, List.reverse_cons]

theorem At.start (hbase : ∀ level ∈ base, level.column < column) : At column base base [] :=
  ⟨hbase, [], none, rfl, by simp, by simp, rfl⟩

theorem dropWhile_base {p : Level κ → Bool} (h : ∀ level ∈ base, p level = false) :
    base.dropWhile p = base := by
  cases base with
  | nil => rfl
  | cons level base =>
    exact List.dropWhile_cons_of_neg (Bool.not_eq_true _ ▸ h level List.mem_cons_self)

theorem dropWhile_extra {p : Level κ → Bool} {extra : List (Level κ)}
    (h : ∀ level ∈ extra, p level = true) (levels : List (Level κ)) :
    (extra ++ levels).dropWhile p = levels.dropWhile p :=
  List.dropWhile_append_of_pos h

theorem At.below_eq (h : At column base levels names) : below column levels = base := by
  obtain ⟨hbase, extra, current, rfl, hextra, hcurrent, -⟩ := h
  rw [below, ← List.append_assoc, dropWhile_extra, dropWhile_base]
  · exact fun level hlevel => decide_eq_false (not_le.mpr (hbase level hlevel))
  · intro level hlevel
    rcases List.mem_append.mp hlevel with hlevel | hlevel
    · exact decide_eq_true (hextra level hlevel).le
    · exact decide_eq_true (hcurrent level (Option.mem_toList.mp hlevel)).ge

theorem At.parent {level : Level κ} (h : At column (level :: base) levels names)
    (hbase : ∀ l ∈ base, l.column < level.column) : At level.column base levels level.names := by
  obtain ⟨hlt, extra, current, rfl, hextra, hcurrent, -⟩ := h
  have hlevel := hlt level List.mem_cons_self
  refine ⟨hbase, extra ++ current.toList, some level, by simp, ?_, ?_, rfl⟩
  · intro l hl
    rcases List.mem_append.mp hl with hl | hl
    · exact hlevel.trans (hextra l hl)
    · exact hlevel.trans_eq (hcurrent l (Option.mem_toList.mp hl)).symm
  · rintro l hl
    rw [Option.mem_some_iff.mp hl]

variable [DecidableEq κ]

theorem At.enter_eq {elem : Bool} (h : At column base levels names)
    (hname : elem = true ∨ name ∉ names) :
    ∃ level, enter elem column name levels = some (level :: base) ∧ level.column = column ∧
      level.name = name ∧ ∀ n ∈ level.earlier, elem = false ∧ n ∈ names := by
  obtain ⟨hbase, extra, current, rfl, hextra, hcurrent, rfl⟩ := h
  rw [enter, dropWhile_extra fun level hlevel => decide_eq_true (hextra level hlevel)]
  cases current with
  | none =>
    rw [Option.toList_none, List.nil_append, dropWhile_base fun level hlevel =>
      decide_eq_false (not_lt.mpr (hbase level hlevel).le)]
    refine ⟨⟨column, name, []⟩, ?_, rfl, rfl, fun n hn => by cases hn⟩
    cases base with
    | nil => rfl
    | cons level base => exact if_neg (hbase level List.mem_cons_self).ne
  | some level =>
    have hlevel : level.column = column := hcurrent level rfl
    rw [Option.toList_some, List.singleton_append, List.dropWhile_cons_of_neg (by simp [hlevel])]
    dsimp only
    rw [if_pos hlevel]
    cases elem with
    | true => exact ⟨⟨column, name, []⟩, rfl, rfl, rfl, fun n hn => by cases hn⟩
    | false =>
      have hnew : name ∉ level.names := hname.resolve_left Bool.false_ne_true
      rw [if_neg Bool.false_ne_true, if_neg hnew]
      exact ⟨⟨column, name, level.names⟩, rfl, rfl, rfl, fun n hn => ⟨rfl, hn⟩⟩

end Outline
