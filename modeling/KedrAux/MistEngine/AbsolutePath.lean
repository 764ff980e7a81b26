import KedrAux.Lib.CharBuffer
import KedrAux.Lib.PathNormalForm
import KedrAux.Lib.While
import KedrAux.MistEngine.Template
import Mathlib.Data.List.ReduceOption

/-!
# Absolute paths

`mist_path_absolute` cuts a path at its separators in place, cancels the components "." and ".."
in an array of pointers to them, and writes what is left to a new buffer.

Allocations succeed.
-/

namespace KedrAux
namespace MistEngine

open CharBuffer
open PathNormalForm (components components_nil components_cons components_append_cons
  components_of_none push resolve size)

def mistPathBufferSize (pathMax : Nat) : Nat :=
  if pathMax < 2048 then 2048 else pathMax

/-- `getcwd`; `none` when the directory and its zero are longer than the buffer. -/
def getcwd (cwd : Str) (size : Nat) : Option (List UInt8) :=
  if cwd.length < size then some (cwd ++ [0]) else none

def mistPathIsAbsolute (path : List UInt8) : Except Fault Bool := do
  let c ← load path 0
  if c = 47 ∨ c = 92 ∨ c = 126 then return true
  else return (← strchr path 0 58).isSome

def mistPathSum (junk : Nat → UInt8) (left right : List UInt8) : Except Fault (List UInt8) := do
  if ← mistPathIsAbsolute right then strdup right 0
  else
    let len ← strlen left 0
    let res ← strcpy (malloc junk (len + (← strlen right 0) + 2)) 0 left 0
    let start := if (← load right 0) = 47 then 1 else 0
    if len ≠ 0 then
      let len := if (← load res (len - 1)) = 47 then len - 1 else len
      strcpy (← store res len 47) (len + 1) right start
    else strcpy res len right start

/-- The variables of `mist_path_to_unix_slashes`. -/
structure SlashState where
  str : List UInt8
  i : Nat

def SlashState.more (len : Nat) (s : SlashState) : Except Fault Bool :=
  .ok (decide (s.i < len))

def SlashState.round (s : SlashState) : Except Fault SlashState := do
  if (← load s.str s.i) = 92 then return ⟨← store s.str s.i 47, s.i + 1⟩
  else return ⟨s.str, s.i + 1⟩

def mistPathToUnixSlashes (str : List UInt8) : Except Fault (List UInt8) := do
  let len ← strlen str 0
  let s ← While.run .endless (SlashState.more len) SlashState.round (len + 1) ⟨str, 0⟩
  return s.str

/-- The variables `raw` and `pos`. -/
structure CutState where
  raw : List UInt8
  pos : Nat

/-- `*pos == '/'` -/
def CutState.more (s : CutState) : Except Fault Bool := do
  return (← load s.raw s.pos) = 47

/-- `*pos = '\0'; ++pos;` -/
def CutState.round (s : CutState) : Except Fault CutState := do
  return ⟨← store s.raw s.pos 0, s.pos + 1⟩

def cutSlashes (raw : List UInt8) (pos : Nat) : Except Fault CutState :=
  While.run .endless CutState.more CutState.round (raw.length + 1) ⟨raw, pos⟩

/-- The components are offsets in `raw`, or `none` when they are cancelled; `stopped` after the
`break`. -/
structure SplitState where
  raw : List UInt8
  pos : Nat
  comp : List (Option Nat)
  stopped : Bool

/-- `*pos != '\0'` -/
def SplitState.more (s : SplitState) : Except Fault Bool :=
  if s.stopped then .ok false
  else do return (← load s.raw s.pos) ≠ 0

def SplitState.round (s : SplitState) : Except Fault SplitState := do
  let comp := s.comp ++ [some s.pos]
  match ← strchr s.raw s.pos 47 with
  | none => return ⟨s.raw, s.pos, comp, true⟩
  | some pos =>
    let cut ← cutSlashes s.raw pos
    return ⟨cut.raw, cut.pos, comp, false⟩

def splitPath (raw : List UInt8) (pos : Nat) : Except Fault SplitState := do
  let cut ← cutSlashes raw pos
  While.run .endless SplitState.more SplitState.round (raw.length + 1) ⟨cut.raw, cut.pos, [], false⟩

/-- The last component in front of the index that is not cancelled yet. -/
def cancelBefore (comp : List (Option Nat)) : Nat → Except Fault (List (Option Nat))
  | 0 => .ok comp
  | j + 1 =>
    match comp[j]? with
    | none => .error .outOfBounds
    | some none => cancelBefore comp j
    | some (some _) => .ok (comp.set j none)

def dot : Str := [46]

def dots : Str := [46, 46]

structure DotState where
  comp : List (Option Nat)
  i : Nat

def DotState.more (s : DotState) : Except Fault Bool :=
  .ok (decide (s.i < s.comp.length))

def DotState.round (raw : List UInt8) (s : DotState) : Except Fault DotState := do
  match s.comp[s.i]? with
  | some (some p) =>
    if ← strEq raw p dot then return ⟨s.comp.set s.i none, s.i + 1⟩
    else if ← strEq raw p dots then
      return ⟨← cancelBefore (s.comp.set s.i none) s.i, s.i + 1⟩
    else return ⟨s.comp, s.i + 1⟩
  -- a null pointer is given to `strcmp`
  | _ => .error .outOfBounds

/-- Get rid of "." and ".." in the path. -/
def removeDots (raw : List UInt8) (comp : List (Option Nat)) :
    Except Fault (List (Option Nat)) := do
  let s ← While.run .endless DotState.more (DotState.round raw) (comp.length + 1) ⟨comp, 0⟩
  return s.comp

structure BuildState where
  res : List UInt8
  cur : Nat
  i : Nat

def BuildState.more (comp : List (Option Nat)) (s : BuildState) : Except Fault Bool :=
  .ok (decide (s.i < comp.length))

def BuildState.round (raw : List UInt8) (comp : List (Option Nat)) (s : BuildState) :
    Except Fault BuildState := do
  match comp[s.i]? with
  | none => .error .outOfBounds
  | some none => return ⟨s.res, s.cur, s.i + 1⟩
  | some (some p) =>
    let res ← store s.res s.cur 47
    let len ← strlen raw p
    return ⟨← CharBuffer.strncpy res (s.cur + 1) raw p len, s.cur + 1 + len, s.i + 1⟩

def buildPath (raw : List UInt8) (comp : List (Option Nat)) (res : List UInt8) (cur : Nat) :
    Except Fault (List UInt8) := do
  let s ← While.run .endless (BuildState.more comp) (BuildState.round raw comp) (comp.length + 1)
    ⟨res, cur, 0⟩
  -- the root directory is the result
  if s.cur = 0 then store (← store s.res 0 47) 1 0
  else store s.res s.cur 0

/-- The path, behind the current directory when it is relative. -/
def rawPath (junk : Nat → UInt8) (pathMax : Nat) (cwd : Str) (path : List UInt8) :
    Except Fault (Option (List UInt8)) := do
  if ← mistPathIsAbsolute path then return some (← strdup path 0)
  else
    match getcwd cwd (mistPathBufferSize pathMax) with
    | none => return none
    | some cwd => return some (← mistPathSum junk cwd path)

def mistPathAbsolute (junk : Nat → UInt8) (pathMax : Nat) (cwd : Str) (path : List UInt8) :
    Except Fault (Option (List UInt8)) := do
  CharBuffer.assert ((← load path 0) ≠ 0)
  match ← rawPath junk pathMax cwd path with
  | none => return none
  | some raw =>
    CharBuffer.assert ((← load raw 0) ≠ 46)
    CharBuffer.assert ((← load raw 0) ≠ 58)
    let res := malloc junk ((← strlen raw 0) + 1)
    let raw ← mistPathToUnixSlashes raw
    match ← strchr raw 0 47 with
    | none => return some (← strcpy res 0 raw 0)
    | some pos =>
      let res ← CharBuffer.strncpy res 0 raw 0 pos
      let parts ← splitPath raw pos
      let comp ← removeDots parts.raw parts.comp
      return some (← buildPath parts.raw comp res pos)

/-- What the caller gives: a path that is not empty, with no colon and no tilde in front. -/
abbrev PlainPath := { s : Str // s ≠ [] ∧ 0 ∉ s ∧ 58 ∉ s ∧ s.head? ≠ some 126 }

abbrev Directory := { s : Str // s.head? = some 47 ∧ 0 ∉ s }

/-- Both kinds of separators. -/
def isSlash (c : UInt8) : Bool :=
  c = 47 || c = 92

def isRooted (path : Str) : Bool :=
  path.head?.any isSlash

/-- A path, behind a directory unless it begins with a separator. -/
def joined (cwd path : Str) : Str :=
  if isRooted path then path else cwd ++ 47 :: path

@[simp] theorem isSlash_iff {c : UInt8} : isSlash c = true ↔ c = 47 ∨ c = 92 := by
  simp [isSlash]

variable {junk : Nat → UInt8} {buf : List UInt8} {cwd : Str} {pathMax : Nat}

section RawPath

variable {path : Str}

theorem mistPathIsAbsolute_of_isRooted (hat : path ++ [0] <+: buf)
    (hrooted : isRooted path = true) : mistPathIsAbsolute buf = .ok true := by
  cases path with
  | nil => cases hrooted
  | cons c rest =>
    have hc : c = 47 ∨ c = 92 := isSlash_iff.mp hrooted
    have hor : c = 47 ∨ c = 92 ∨ c = 126 := by tauto
    simp only [mistPathIsAbsolute, bind, Except.bind, load_of_at (i := 0) hat, if_pos hor]
    rfl

theorem mistPathIsAbsolute_of_plain (hat : path ++ [0] <+: buf) (hne : path ≠ [])
    (hzero : 0 ∉ path) (hcolon : 58 ∉ path) (htilde : path.head? ≠ some 126)
    (hrooted : isRooted path = false) : mistPathIsAbsolute buf = .ok false := by
  obtain ⟨c, rest, rfl⟩ := List.exists_cons_of_ne_nil hne
  have hc : ¬ (c = 47 ∨ c = 92 ∨ c = 126) := by
    rintro (rfl | rfl | rfl)
    · cases hrooted
    · cases hrooted
    · exact htilde rfl
  simp only [mistPathIsAbsolute, bind, Except.bind, load_of_at (i := 0) hat, if_neg hc,
    strchr_of_at (i := 0) hat hzero, if_neg hcolon]
  rfl

/-- A directory without a separator at its end. -/
def trimmed (cwd : Str) : Str :=
  if cwd.getLast? = some 47 then cwd.dropLast else cwd

theorem trimmed_isPrefix (cwd : Str) : trimmed cwd <+: cwd := by
  rw [trimmed]
  split_ifs
  · exact List.dropLast_prefix cwd
  · exact List.prefix_refl cwd

theorem mistPathSum_holds (junk : Nat → UInt8) (hcwd : cwd ≠ []) (hcwd0 : 0 ∉ cwd) (hne : path ≠ [])
    (hzero : 0 ∉ path) (hcolon : 58 ∉ path) (htilde : path.head? ≠ some 126)
    (hrooted : isRooted path = false) :
    ∃ raw, mistPathSum junk (cwd ++ [0]) (path ++ [0]) = .ok raw ∧
      trimmed cwd ++ 47 :: path ++ [0] <+: raw := by
  have hleft : cwd ++ [0] <+: (cwd ++ [0]).drop 0 := List.prefix_refl _
  have hright : path ++ [0] <+: (path ++ [0]).drop 0 := List.prefix_refl _
  obtain ⟨c, rest, hpath⟩ := List.exists_cons_of_ne_nil hne
  have hstart : load (path ++ [0]) 0 = .ok c := by
    rw [hpath]
    exact load_of_at (List.prefix_refl _)
  have hc : c ≠ 47 := by
    rintro rfl
    rw [hpath] at hrooted
    cases hrooted
  -- the directory is copied to the new buffer
  obtain ⟨res, hres, hat, hlength⟩ := strcpy_of_isPrefix
    (List.nil_prefix (l := malloc junk (cwd.length + path.length + 2))) hleft hcwd0
    (by rw [length_malloc]; simp only [List.length_nil]; omega)
  rw [length_malloc] at hlength
  rw [List.nil_append] at hat
  obtain ⟨d, hlast⟩ : ∃ d, cwd = cwd.dropLast ++ [d] :=
    ⟨cwd.getLast hcwd, (List.dropLast_concat_getLast hcwd).symm⟩
  have hlen : cwd.dropLast.length = cwd.length - 1 := List.length_dropLast
  have hpos := List.length_pos_iff.mpr hcwd
  have hload : load res (cwd.length - 1) = .ok d := by
    have hat' := hat
    rw [hlast, List.append_assoc] at hat'
    rw [← hlen]
    exact load_of_at (t := [0]) (at_of_isPrefix hat')
  -- the separator and the path are put behind it
  have htrimmed : (if d = 47 then cwd.length - 1 else cwd.length) = (trimmed cwd).length := by
    have hget : cwd.getLast? = some d := by
      rw [hlast, List.getLast?_append_of_ne_nil _ (by simp)]
      rfl
    rw [trimmed, hget]
    by_cases hd : d = 47
    · rw [if_pos hd, if_pos (by rw [hd]), hlen]
    · rw [if_neg hd, if_neg fun h => hd (Option.some.inj h)]
  have htle := (trimmed_isPrefix cwd).length_le
  obtain ⟨res', hstore, hat', hlength'⟩ := store_of_isPrefix
    ((trimmed_isPrefix cwd).trans ((List.prefix_append cwd [0]).trans hat)) (by omega) 47
  obtain ⟨raw, hraw, hat'', -⟩ := strcpy_of_isPrefix hat' hright hzero (by
    rw [List.length_append, List.length_singleton]
    omega)
  rw [List.length_append, List.length_singleton] at hraw
  refine ⟨raw, ?_, by simpa using hat''⟩
  have hlen0 : cwd.length ≠ 0 := by omega
  rw [mistPathSum, mistPathIsAbsolute_of_plain (List.prefix_refl _) hne hzero hcolon htilde hrooted,
    strlen_of_at hleft hcwd0, strlen_of_at hright hzero, hstart]
  rw [List.length_nil] at hres
  simp only [bind, Except.bind, hres, hload, htrimmed, hstore, if_neg hc, if_pos hlen0]
  exact hraw

def rawText (cwd path : Str) : Str :=
  if isRooted path then path else trimmed cwd ++ 47 :: path

theorem components_trimmed (cwd : Str) :
    components isSlash (trimmed cwd) = components isSlash cwd := by
  rw [trimmed]
  split_ifs with hlast
  · have hne : cwd ≠ [] := by
      rintro rfl
      cases hlast
    rw [List.getLast?_eq_some_getLast hne, Option.some.injEq] at hlast
    conv_rhs => rw [← List.dropLast_concat_getLast hne, hlast]
    rw [components_append_cons _ [] (by decide), components_nil, List.append_nil]
  · rfl

theorem components_rawText (cwd path : Str) :
    components isSlash (rawText cwd path) = components isSlash (joined cwd path) := by
  rw [rawText, joined]
  split_ifs
  · rfl
  · rw [components_append_cons _ _ (by decide), components_append_cons _ _ (by decide),
      components_trimmed]

theorem isRooted_rawText (hcwd : cwd.head? = some 47) : isRooted (rawText cwd path) = true := by
  rw [rawText]
  split_ifs with hrooted
  · exact hrooted
  · cases htrimmed : trimmed cwd with
    | nil => rfl
    | cons c t =>
      have hpre := trimmed_isPrefix cwd
      rw [htrimmed] at hpre
      obtain ⟨rest, rfl⟩ := hpre
      cases hcwd
      rfl

theorem zero_notMem_rawText (hcwd : 0 ∉ cwd) (hzero : 0 ∉ path) : 0 ∉ rawText cwd path := by
  rw [rawText]
  split_ifs
  · exact hzero
  · rw [List.mem_append, List.mem_cons, not_or, not_or]
    exact ⟨fun h => hcwd ((trimmed_isPrefix cwd).subset h), by decide, hzero⟩

theorem rawPath_of_isRooted (hat : path ++ [0] <+: buf) (hzero : 0 ∉ path)
    (hrooted : isRooted path = true) :
    rawPath junk pathMax cwd buf = .ok (some (path ++ [0])) := by
  rw [rawPath, mistPathIsAbsolute_of_isRooted hat hrooted]
  simp only [bind, Except.bind, if_true, strdup_of_at (i := 0) hat hzero]
  rfl

theorem rawPath_holds (junk : Nat → UInt8) (cwd : Directory) (path : PlainPath)
    (hfits : isRooted path.val = true ∨ cwd.val.length < mistPathBufferSize pathMax) :
    ∃ raw, rawPath junk pathMax cwd (path.val ++ [0]) = .ok (some raw) ∧
      rawText cwd path ++ [0] <+: raw := by
  obtain ⟨cwd, hcwd, hcwd0⟩ := cwd
  obtain ⟨path, hne, hzero, hcolon, htilde⟩ := path
  dsimp only at hfits ⊢
  rw [rawText]
  by_cases hrooted : isRooted path = true
  · rw [if_pos hrooted]
    exact ⟨_, rawPath_of_isRooted (List.prefix_refl _) hzero hrooted, List.prefix_refl _⟩
  · rw [if_neg hrooted]
    have hcwdne : cwd ≠ [] := by
      rintro rfl
      cases hcwd
    have hrooted' := Bool.eq_false_iff.mpr hrooted
    obtain ⟨raw, hraw, hat⟩ := mistPathSum_holds junk hcwdne hcwd0 hne hzero hcolon htilde
      hrooted'
    refine ⟨raw, ?_, hat⟩
    rw [rawPath, mistPathIsAbsolute_of_plain (List.prefix_refl _) hne hzero hcolon htilde hrooted']
    simp only [bind, Except.bind, Bool.false_eq_true, if_false, getcwd,
      if_pos (hfits.resolve_left hrooted), hraw]
    rfl

end RawPath

def isUnixSlash (c : UInt8) : Bool :=
  c = 47

def unixSlash (c : UInt8) : UInt8 :=
  if c = 92 then 47 else c

/-- The loop that turns backslashes into slashes. -/
theorem slash_run (len : Nat) (rest : Str) :
    ∀ done str, done ++ rest ++ [0] <+: str → done.length + rest.length = len →
      ∀ fuel, rest.length < fuel → ∃ s,
        While.run .endless (SlashState.more len) SlashState.round fuel ⟨str, done.length⟩ = .ok s ∧
        done ++ rest.map unixSlash ++ [0] <+: s.str ∧ s.str.length = str.length := by
  induction rest with
  | nil =>
    intro done str hat hlen fuel hfuel
    obtain ⟨fuel, rfl⟩ := Nat.exists_eq_add_of_lt hfuel
    have hmore : SlashState.more len ⟨str, done.length⟩ = .ok false := by
      rw [SlashState.more, decide_eq_false (by simpa using hlen.ge)]
    exact ⟨_, While.run_of_false hmore _, hat, rfl⟩
  | cons c rest ih =>
    intro done str hat hlen fuel hfuel
    obtain ⟨fuel, rfl⟩ := Nat.exists_eq_add_of_le' (Nat.one_le_of_lt hfuel)
    rw [List.append_assoc, List.cons_append] at hat
    rw [List.length_cons] at hlen hfuel
    have hmore : SlashState.more len ⟨str, done.length⟩ = .ok true := by
      rw [SlashState.more, decide_eq_true (show done.length < len by omega)]
    have hload := load_of_at (at_of_isPrefix hat)
    -- the character, as it is behind the round
    obtain ⟨str', hround, hat', hlength⟩ : ∃ str',
        SlashState.round ⟨str, done.length⟩ = .ok ⟨str', done.length + 1⟩ ∧
        done ++ unixSlash c :: (rest ++ [0]) <+: str' ∧ str'.length = str.length := by
      by_cases hc : c = 92
      · obtain ⟨str', hstore, hat', hlength⟩ := store_between hat 47
        refine ⟨str', ?_, by rwa [unixSlash, if_pos hc], hlength⟩
        simp only [SlashState.round, bind, Except.bind, hload, if_pos hc, hstore]
        rfl
      · refine ⟨str, ?_, by rwa [unixSlash, if_neg hc], rfl⟩
        simp only [SlashState.round, bind, Except.bind, hload, if_neg hc]
        rfl
    have hdone : (done ++ [unixSlash c]).length = done.length + 1 := List.length_append
    obtain ⟨s, hrun, hs, hslength⟩ := ih (done ++ [unixSlash c]) str' (by simpa using hat')
      (by omega) fuel (by omega)
    rw [hdone] at hrun
    exact ⟨s, (While.run_of_true hmore hround fuel).trans hrun, by simpa using hs,
      hslength.trans hlength⟩

theorem mistPathToUnixSlashes_holds {str : List UInt8} {t : Str} (hat : t ++ [0] <+: str)
    (hzero : 0 ∉ t) :
    ∃ str', mistPathToUnixSlashes str = .ok str' ∧ t.map unixSlash ++ [0] <+: str' ∧
      str'.length = str.length := by
  obtain ⟨s, hrun, hs, hlength⟩ := slash_run t.length t [] str hat (Nat.zero_add _)
    (t.length + 1) (Nat.lt_succ_self _)
  refine ⟨s.str, ?_, hs, hlength⟩
  rw [mistPathToUnixSlashes, strlen_of_at (i := 0) hat hzero]
  rw [List.length_nil] at hrun
  simp only [bind, Except.bind, hrun]
  rfl

theorem unixSlash_of_not_isSlash {c : UInt8} (h : isSlash c = false) : unixSlash c = c := by
  refine if_neg fun hc => ?_
  rw [hc] at h
  cases h

theorem isUnixSlash_unixSlash (c : UInt8) : isUnixSlash (unixSlash c) = isSlash c := by
  rw [unixSlash]
  split_ifs with hc
  · rw [hc]
    rfl
  · simp [isSlash, isUnixSlash, hc]

theorem components_unixSlash (t : Str) :
    components isUnixSlash (t.map unixSlash) = components isSlash t := by
  induction hn : t.length using Nat.strong_induction_on generalizing t with
  | _ n ih =>
    by_cases hsep : ∃ a ∈ t, isSlash a = true
    · obtain ⟨a, ha, hslash⟩ := hsep
      obtain ⟨l, r, rfl⟩ := List.append_of_mem ha
      rw [List.length_append, List.length_cons] at hn
      rw [List.map_append, List.map_cons,
        components_append_cons _ _ ((isUnixSlash_unixSlash a).trans hslash),
        components_append_cons _ _ hslash, ih l.length (by omega) l rfl,
        ih r.length (by omega) r rfl]
    · have hnone : ∀ a ∈ t, isSlash a = false := by
        intro a ha
        exact Bool.eq_false_iff.mpr fun hslash => hsep ⟨a, ha, hslash⟩
      have hmap : t.map unixSlash = t := by
        rw [List.map_congr_left fun a ha => unixSlash_of_not_isSlash (hnone a ha), List.map_id']
      by_cases ht : t = []
      · rw [ht]
        rfl
      · rw [hmap, components_of_none hnone ht, components_of_none _ ht]
        intro a ha
        rw [← unixSlash_of_not_isSlash (hnone a ha)]
        exact (isUnixSlash_unixSlash a).trans (hnone a ha)

variable {raw : List UInt8} {cs : List Str}

section Splitting

variable {before : List UInt8} {comp : List (Option Nat)} {rest : Str}

/-- A pointer to a component, with the terminating zero of the component. -/
def Points (raw : List UInt8) (p : Option Nat) (c : Str) : Prop :=
  ∃ q, p = some q ∧ c ++ [0] <+: raw.drop q ∧ 0 ∉ c

theorem Points.mono {p : Option Nat} {c : Str} (h : Points before p c) (hpre : before <+: raw) :
    Points raw p c := by
  obtain ⟨q, hp, hat, hzero⟩ := h
  exact ⟨q, hp, hat.trans (hpre.drop q), hzero⟩

/-- The loop that removes the slashes in front of a component. -/
theorem cut_run (slashes : Str) (hslashes : ∀ a ∈ slashes, a = 47)
    (hrest : rest.head? ≠ some 47) :
    ∀ before raw, before ++ slashes ++ (rest ++ [0]) <+: raw →
      ∀ fuel, slashes.length < fuel → ∃ raw',
        While.run .endless CutState.more CutState.round fuel ⟨raw, before.length⟩ =
          .ok ⟨raw', before.length + slashes.length⟩ ∧
        before ++ List.replicate slashes.length 0 ++ (rest ++ [0]) <+: raw' ∧
        raw'.length = raw.length := by
  induction slashes with
  | nil =>
    intro before raw hat fuel hfuel
    obtain ⟨fuel, rfl⟩ := Nat.exists_eq_add_of_lt hfuel
    rw [List.append_nil] at hat
    obtain ⟨c, tail, hcons⟩ := List.exists_cons_of_ne_nil (show rest ++ [0] ≠ [] by simp)
    have hc : c ≠ 47 := by
      rintro rfl
      cases rest with
      | nil => cases hcons
      | cons d rest => cases hcons; exact hrest rfl
    have hat' := at_of_isPrefix hat
    rw [hcons] at hat'
    have hmore : CutState.more ⟨raw, before.length⟩ = .ok false := by
      simp only [CutState.more, bind, Except.bind, load_of_at hat', hc, decide_false]
      rfl
    exact ⟨raw, While.run_of_false hmore _, by simpa using hat, rfl⟩
  | cons a slashes ih =>
    intro before raw hat fuel hfuel
    obtain ⟨fuel, rfl⟩ := Nat.exists_eq_add_of_le' (Nat.one_le_of_lt hfuel)
    have ha := hslashes a List.mem_cons_self
    subst ha
    rw [List.append_assoc, List.cons_append] at hat
    have hmore : CutState.more ⟨raw, before.length⟩ = .ok true := by
      simp only [CutState.more, bind, Except.bind, load_of_at (at_of_isPrefix hat), decide_true]
      rfl
    obtain ⟨raw', hstore, hat', hlength⟩ := store_between hat 0
    have hround : CutState.round ⟨raw, before.length⟩ = .ok ⟨raw', before.length + 1⟩ := by
      simp only [CutState.round, bind, Except.bind, hstore]
      rfl
    have hbefore : (before ++ [(0 : UInt8)]).length = before.length + 1 := List.length_append
    obtain ⟨raw'', hrun, hat'', hlength'⟩ := ih (fun b hb => hslashes b (List.mem_cons_of_mem 47 hb))
      (before ++ [0]) raw' (by simpa using hat') fuel (by simpa using hfuel)
    rw [hbefore] at hrun
    refine ⟨raw'', (While.run_of_true hmore hround fuel).trans ?_, ?_, hlength'.trans hlength⟩
    · rw [hrun, List.length_cons, Nat.add_assoc, Nat.add_comm 1]
    · simpa [List.replicate_succ] using hat''

theorem cutSlashes_holds (before : List UInt8) {slashes : Str} (hslashes : ∀ a ∈ slashes, a = 47)
    (hrest : rest.head? ≠ some 47) (hat : before ++ slashes ++ (rest ++ [0]) <+: raw) :
    ∃ raw', cutSlashes raw before.length = .ok ⟨raw', before.length + slashes.length⟩ ∧
      before ++ List.replicate slashes.length 0 ++ (rest ++ [0]) <+: raw' ∧
      raw'.length = raw.length := by
  have hlength := hat.length_le
  simp only [List.length_append] at hlength
  exact cut_run slashes hslashes hrest before raw hat (raw.length + 1) (by omega)

theorem exists_component (hne : rest ≠ []) (hrest : rest.head? ≠ some 47) :
    ∃ c slashes rest', rest = c ++ slashes ++ rest' ∧ c ≠ [] ∧ 47 ∉ c ∧
      (∀ a ∈ slashes, a = 47) ∧ rest'.head? ≠ some 47 ∧ (slashes = [] → rest' = []) := by
  have hsplit := List.takeWhile_append_dropWhile (p := fun a : UInt8 => a ≠ 47) (l := rest)
  have htail := List.takeWhile_append_dropWhile (p := fun a : UInt8 => a = 47)
    (l := rest.dropWhile fun a => a ≠ 47)
  refine ⟨rest.takeWhile fun a => a ≠ 47, (rest.dropWhile fun a => a ≠ 47).takeWhile fun a => a = 47,
    (rest.dropWhile fun a => a ≠ 47).dropWhile fun a => a = 47, ?_, ?_, ?_, ?_, ?_, ?_⟩
  · rw [List.append_assoc, htail, hsplit]
  · intro hnil
    obtain ⟨a, l, rfl⟩ := List.exists_cons_of_ne_nil hne
    have ha : a ≠ 47 := fun h => hrest (congrArg some h)
    rw [List.takeWhile_cons_of_pos (by simpa using ha)] at hnil
    cases hnil
  · intro hmem
    simpa using List.mem_takeWhile_imp hmem
  · intro a ha
    simpa using List.mem_takeWhile_imp ha
  · intro hhead
    simpa using Trim.head_dropWhile hhead
  · intro hnil
    cases hdrop : rest.dropWhile fun a => decide (a ≠ 47) with
    | nil => rfl
    | cons a l =>
      have ha := Trim.head_dropWhile (congrArg List.head? hdrop)
      rw [hdrop, List.takeWhile_cons_of_pos (by simpa using ha)] at hnil
      cases hnil

section Round

variable {c slashes : Str}

theorem components_component (hc : 47 ∉ c) (hcne : c ≠ []) : components isUnixSlash c = [c] :=
  components_of_none (fun _ hb => decide_eq_false fun h => hc (h ▸ hb)) hcne

theorem components_slashes (hslashes : ∀ a ∈ slashes, a = 47) :
    components isUnixSlash (slashes ++ rest) = components isUnixSlash rest :=
  PathNormalForm.components_append_of_all rest fun a ha => decide_eq_true (hslashes a ha)

theorem splitMore_of_ne (comp : List (Option Nat)) (hat : before ++ (rest ++ [0]) <+: raw)
    (hne : rest ≠ [])
    (hzero : 0 ∉ rest) : SplitState.more ⟨raw, before.length, comp, false⟩ = .ok true := by
  obtain ⟨a, l, rfl⟩ := List.exists_cons_of_ne_nil hne
  have ha0 : a ≠ 0 := fun h => hzero (h ▸ List.mem_cons_self)
  have hload := load_of_at (at_of_isPrefix hat)
  simp only [SplitState.more, Bool.false_eq_true, if_false, bind, Except.bind, hload, ne_eq, ha0,
    not_false_eq_true, decide_true]
  rfl

theorem splitRound_last (hat : before ++ (c ++ [0]) <+: raw) (hc : 47 ∉ c) (hzero : 0 ∉ c) :
    SplitState.round ⟨raw, before.length, comp, false⟩ =
      .ok ⟨raw, before.length, comp ++ [some before.length], true⟩ := by
  have hchr := strchr_of_at (at_of_isPrefix hat) hzero 47
  rw [if_neg hc] at hchr
  simp only [SplitState.round, bind, Except.bind, hchr]
  rfl

theorem splitRound_cut (comp : List (Option Nat))
    (hat : before ++ (c ++ slashes ++ rest ++ [0]) <+: raw) (hc : 47 ∉ c)
    (hzero : 0 ∉ c ++ slashes ++ rest) (hne : slashes ≠ []) (hslashes : ∀ a ∈ slashes, a = 47)
    (hrest : rest.head? ≠ some 47) :
    ∃ raw', SplitState.round ⟨raw, before.length, comp, false⟩ =
        .ok ⟨raw', (before ++ (c ++ List.replicate slashes.length 0)).length,
          comp ++ [some before.length], false⟩ ∧
      before ++ (c ++ List.replicate slashes.length 0) ++ (rest ++ [0]) <+: raw' := by
  have hchr := strchr_of_at (at_of_isPrefix hat) hzero 47
  have hidx : (c ++ slashes ++ rest).idxOf 47 = c.length := by
    obtain ⟨b, l, rfl⟩ := List.exists_cons_of_ne_nil hne
    obtain rfl := hslashes b List.mem_cons_self
    rw [List.append_assoc, List.idxOf_append_of_notMem hc, List.cons_append, List.idxOf_cons_self,
      Nat.add_zero]
  have hmem : 47 ∈ c ++ slashes ++ rest := by
    obtain ⟨b, l, rfl⟩ := List.exists_cons_of_ne_nil hne
    obtain rfl := hslashes b List.mem_cons_self
    simp
  rw [hidx, if_pos hmem] at hchr
  have hat' : before ++ c ++ slashes ++ (rest ++ [0]) <+: raw := by
    simpa using hat
  obtain ⟨raw', hcut, hat'', -⟩ := cutSlashes_holds _ hslashes hrest hat'
  rw [List.length_append] at hcut
  refine ⟨raw', ?_, by simpa using hat''⟩
  simp only [SplitState.round, bind, Except.bind, hchr, hcut, List.length_append,
    List.length_replicate, Nat.add_assoc]
  rfl

end Round

/-- The loop that cuts the path into its components. -/
theorem split_run (n : Nat) :
    ∀ before rest raw comp cs, rest.length ≤ n → before ++ (rest ++ [0]) <+: raw →
      rest.head? ≠ some 47 → 0 ∉ rest → List.Forall₂ (Points before) comp cs →
      ∀ fuel, rest.length < fuel → ∃ s,
        While.run .endless SplitState.more SplitState.round fuel ⟨raw, before.length, comp, false⟩ =
          .ok s ∧ List.Forall₂ (Points s.raw) s.comp (cs ++ components isUnixSlash rest) := by
  induction n with
  | zero =>
    intro before rest raw comp cs hn hat _ _ hcomp fuel hfuel
    obtain rfl := List.eq_nil_of_length_eq_zero (Nat.le_zero.mp hn)
    obtain ⟨fuel, rfl⟩ := Nat.exists_eq_add_of_lt hfuel
    have hmore : SplitState.more ⟨raw, before.length, comp, false⟩ = .ok false := by
      have hload := load_of_at (c := 0) (t := []) (at_of_isPrefix hat)
      simp only [SplitState.more, Bool.false_eq_true, if_false, bind, Except.bind, hload]
      rfl
    refine ⟨_, While.run_of_false hmore _, ?_⟩
    rw [components_nil, List.append_nil]
    exact hcomp.imp fun _ _ h => h.mono ((List.prefix_append _ _).trans hat)
  | succ n ih =>
    intro before rest raw comp cs hn hat hrest hzero hcomp fuel hfuel
    by_cases hne : rest = []
    · exact ih before rest raw comp cs (by simp [hne]) hat hrest hzero hcomp fuel hfuel
    obtain ⟨fuel, rfl⟩ := Nat.exists_eq_add_of_le' (Nat.one_le_of_lt hfuel)
    have hmore := splitMore_of_ne comp hat hne hzero
    obtain ⟨c, slashes, rest', rfl, hcne, hc, hslashes, hrest', hend⟩ := exists_component hne hrest
    have hc0 : 0 ∉ c := fun h => hzero (by simp [h])
    have hcpos := List.length_pos_iff.mpr hcne
    simp only [List.length_append] at hn hfuel
    by_cases hlast : slashes = []
    · obtain rfl := hend hlast
      subst hlast
      rw [List.append_nil, List.append_nil] at hat ⊢
      obtain ⟨fuel, rfl⟩ := Nat.exists_eq_add_of_le' (show 1 ≤ fuel by omega)
      have hstop : SplitState.more ⟨raw, before.length, comp ++ [some before.length], true⟩ =
          .ok false := rfl
      refine ⟨_, (While.run_of_true hmore (splitRound_last hat hc hc0) _).trans
        (While.run_of_false hstop _), ?_⟩
      rw [components_component hc hcne]
      exact List.rel_append (hcomp.imp fun _ _ h => h.mono ((List.prefix_append _ _).trans hat))
        (List.Forall₂.cons ⟨_, rfl, at_of_isPrefix hat, hc0⟩ List.Forall₂.nil)
    · obtain ⟨raw', hround, hat'⟩ := splitRound_cut comp hat hc hzero hlast hslashes hrest'
      have hspos := List.length_pos_iff.mpr hlast
      obtain ⟨k, hk⟩ := Nat.exists_eq_add_of_le' hspos
      have hnew : List.Forall₂ (Points (before ++ (c ++ List.replicate slashes.length 0)))
          (comp ++ [some before.length]) (cs ++ [c]) := by
        have hterm : c ++ [0] <+: c ++ List.replicate slashes.length 0 := by
          rw [hk, List.replicate_succ]
          exact (List.prefix_append_right_inj c).mpr (List.prefix_append [0] _)
        exact List.rel_append (hcomp.imp fun _ _ h => h.mono (List.prefix_append _ _))
          (List.Forall₂.cons ⟨_, rfl, at_of_isPrefix ((List.prefix_append_right_inj _).mpr hterm),
            hc0⟩ List.Forall₂.nil)
      obtain ⟨s, hrun, hs⟩ := ih _ rest' raw' _ _ (by omega) hat' hrest'
        (fun h => hzero (List.mem_append_right _ h)) hnew fuel (by omega)
      refine ⟨s, (While.run_of_true hmore hround fuel).trans hrun, ?_⟩
      obtain ⟨b, l, rfl⟩ := List.exists_cons_of_ne_nil hlast
      obtain rfl := hslashes b List.mem_cons_self
      rw [List.append_assoc, List.cons_append, components_append_cons _ _ (by decide),
        components_component hc hcne,
        components_slashes fun a ha => hslashes a (List.mem_cons_of_mem 47 ha)]
      rwa [List.append_assoc] at hs

theorem splitPath_holds {t : Str} (hat : t ++ [0] <+: raw) (hzero : 0 ∉ t) :
    ∃ s, splitPath raw 0 = .ok s ∧
      List.Forall₂ (Points s.raw) s.comp (components isUnixSlash t) := by
  have hsplit := List.takeWhile_append_dropWhile (p := fun a : UInt8 => a = 47) (l := t)
  generalize hl : t.takeWhile (fun a => decide (a = 47)) = l at hsplit
  generalize hr : t.dropWhile (fun a => decide (a = 47)) = r at hsplit
  have hslashes : ∀ a ∈ l, a = 47 := by
    intro a ha
    rw [← hl] at ha
    simpa using List.mem_takeWhile_imp ha
  have hrest : r.head? ≠ some 47 := by
    intro hhead
    rw [← hr] at hhead
    simpa using Trim.head_dropWhile hhead
  subst hsplit
  obtain ⟨raw', hcut, hat', hlength⟩ := cutSlashes_holds [] hslashes hrest
    (by simpa using hat)
  have hlen := hat.length_le
  simp only [List.length_append] at hlen
  obtain ⟨s, hrun, hs⟩ := split_run r.length (List.replicate l.length 0) r raw' [] [] le_rfl
    (by simpa using hat') hrest (fun h => hzero (List.mem_append_right _ h)) List.Forall₂.nil
    (raw.length + 1) (by omega)
  rw [List.length_replicate] at hrun
  rw [List.length_nil, Nat.zero_add] at hcut
  refine ⟨s, ?_, ?_⟩
  · simp only [splitPath, bind, Except.bind, hcut]
    exact hrun
  · rw [components_slashes hslashes]
    exact hs

end Splitting

section Cancelling

/-- The entries that are not cancelled point to the components on a stack. -/
def Holds (raw : List UInt8) (comp : List (Option Nat)) (stack : List Str) : Prop :=
  List.Forall₂ (Points raw) (comp.reduceOption.map some) stack

theorem cancelBefore_eq (done : List (Option Nat)) :
    ∀ rest, ∃ done', cancelBefore (done ++ rest) done.length = .ok (done' ++ rest) ∧
      done'.length = done.length ∧ done'.reduceOption = done.reduceOption.dropLast := by
  induction done using List.reverseRecOn with
  | nil => exact fun rest => ⟨[], rfl, rfl, rfl⟩
  | append_singleton done x ih =>
    intro rest
    have hget : (done ++ [x] ++ rest)[done.length]? = some x := by
      rw [List.append_assoc, List.getElem?_append_right le_rfl, Nat.sub_self]
      rfl
    rw [List.length_append, List.length_singleton, cancelBefore, hget]
    cases x with
    | none =>
      obtain ⟨done', hcancel, hlength, hreduce⟩ := ih (none :: rest)
      refine ⟨done' ++ [none], ?_, by simp [hlength], ?_⟩
      · rw [List.append_assoc, List.append_assoc]
        exact hcancel
      · rw [List.reduceOption_append, hreduce, List.reduceOption_append]
        simp
    | some y =>
      refine ⟨done ++ [none], ?_, by simp, ?_⟩
      · simp only [List.append_assoc, List.set_append_right _ _ le_rfl, Nat.sub_self]
        rfl
      · rw [List.reduceOption_append, List.reduceOption_append]
        simp

theorem set_between (done rest : List (Option Nat)) (x y : Option Nat) :
    (done ++ x :: rest).set done.length y = done ++ y :: rest := by
  rw [List.set_append_right _ _ le_rfl, Nat.sub_self]
  rfl

variable {done done' : List (Option Nat)} {stack : List Str}

theorem holds_append {stack' : List Str} (h : Holds raw done stack) (h' : Holds raw done' stack') :
    Holds raw (done ++ done') (stack ++ stack') := by
  rw [Holds, List.reduceOption_append, List.map_append]
  exact List.rel_append h h'

theorem holds_none : Holds raw [none] [] := List.Forall₂.nil

theorem Holds.dropLast (h : Holds raw done stack)
    (hreduce : done'.reduceOption = done.reduceOption.dropLast) :
    Holds raw done' stack.dropLast := by
  rw [Holds, hreduce]
  have hlength : done.reduceOption.length = stack.length := by
    rw [← List.Forall₂.length_eq h, List.length_map]
  rw [List.dropLast_eq_take, List.dropLast_eq_take, hlength, List.map_take]
  exact List.forall₂_take _ h

theorem dotRound_push (rest : List (Option Nat)) {p : Option Nat} {c : Str}
    (hdone : Holds raw done stack) (hp : Points raw p c) :
    ∃ done', DotState.round raw ⟨done ++ p :: rest, done.length⟩ =
        .ok ⟨done' ++ rest, done.length + 1⟩ ∧
      done'.length = done.length + 1 ∧ Holds raw done' (push dot dots stack c) := by
  obtain ⟨q, rfl, hat, hzero⟩ := hp
  have hget : (done ++ some q :: rest)[done.length]? = some (some q) := by
    rw [List.getElem?_append_right le_rfl, Nat.sub_self]
    rfl
  have hcancelled (l : List (Option Nat)) : l ++ none :: rest = (l ++ [none]) ++ rest :=
    List.append_cons _ _ _
  by_cases hdot : c = dot
  · refine ⟨done ++ [none], ?_, by simp, ?_⟩
    · simp only [DotState.round, hget, bind, Except.bind, strEq_of_at hat hzero,
        decide_eq_true hdot, if_true, set_between, hcancelled]
      rfl
    · rw [push, if_pos hdot, ← List.append_nil stack]
      exact holds_append hdone holds_none
  · by_cases hdots : c = dots
    · obtain ⟨done', hcancel, hlength, hreduce⟩ := cancelBefore_eq done (none :: rest)
      refine ⟨done' ++ [none], ?_, by simp [hlength], ?_⟩
      · rw [hcancelled] at hcancel
        simp only [DotState.round, hget, bind, Except.bind, strEq_of_at hat hzero,
          decide_eq_false hdot, Bool.false_eq_true, if_false, decide_eq_true hdots, if_true,
          set_between, hcancelled, hcancel]
        rfl
      · rw [push, if_neg hdot, if_pos hdots, ← List.append_nil stack.dropLast]
        exact holds_append (hdone.dropLast hreduce) holds_none
    · refine ⟨done ++ [some q], ?_, by simp, ?_⟩
      · simp only [DotState.round, hget, bind, Except.bind, strEq_of_at hat hzero,
          decide_eq_false hdot, decide_eq_false hdots, Bool.false_eq_true, if_false]
        rw [List.append_cons]
        rfl
      · rw [push, if_neg hdot, if_neg hdots]
        exact holds_append hdone (List.Forall₂.cons ⟨q, rfl, hat, hzero⟩ List.Forall₂.nil)

/-- The loop that resolves the components `.` and `..`. -/
theorem dot_run {rest : List (Option Nat)} (hrest : List.Forall₂ (Points raw) rest cs) :
    ∀ done stack, Holds raw done stack → ∀ fuel, rest.length < fuel → ∃ s,
      While.run .endless DotState.more (DotState.round raw) fuel ⟨done ++ rest, done.length⟩ =
        .ok s ∧ Holds raw s.comp (cs.foldl (push dot dots) stack) := by
  induction hrest with
  | nil =>
    intro done stack hdone fuel hfuel
    obtain ⟨fuel, rfl⟩ := Nat.exists_eq_add_of_lt hfuel
    rw [List.append_nil]
    have hmore : DotState.more ⟨done, done.length⟩ = .ok false := by
      rw [DotState.more, decide_eq_false (lt_irrefl _)]
    exact ⟨_, While.run_of_false hmore _, hdone⟩
  | @cons p c rest cs hp _ ih =>
    intro done stack hdone fuel hfuel
    obtain ⟨fuel, rfl⟩ := Nat.exists_eq_add_of_le' (Nat.one_le_of_lt hfuel)
    have hmore : DotState.more ⟨done ++ p :: rest, done.length⟩ = .ok true := by
      rw [DotState.more, decide_eq_true (by simp)]
    obtain ⟨done', hround, hlength, hdone'⟩ := dotRound_push rest hdone hp
    obtain ⟨s, hrun, hs⟩ := ih done' _ hdone' fuel (by simpa using hfuel)
    rw [hlength] at hrun
    exact ⟨s, (While.run_of_true hmore hround fuel).trans hrun, hs⟩

theorem removeDots_holds {comp : List (Option Nat)} (h : List.Forall₂ (Points raw) comp cs) :
    ∃ comp', removeDots raw comp = .ok comp' ∧ Holds raw comp' (resolve dot dots cs) := by
  obtain ⟨s, hrun, hs⟩ := dot_run h [] [] List.Forall₂.nil (comp.length + 1) (Nat.lt_succ_self _)
  rw [List.nil_append, List.length_nil] at hrun
  refine ⟨s.comp, ?_, hs⟩
  simp only [removeDots, bind, Except.bind, hrun]
  rfl

end Cancelling

section Building

variable {out res : List UInt8} {rest : List (Option Nat)}

theorem buildRound_some (done rest : List (Option Nat)) {q : Nat} {c : Str} (hout : out <+: res)
    (hp : Points raw (some q) c) (hroom : out.length + c.length + 1 ≤ res.length) :
    ∃ res', BuildState.round raw (done ++ some q :: rest) ⟨res, out.length, done.length⟩ =
        .ok ⟨res', (out ++ 47 :: c).length, done.length + 1⟩ ∧
      out ++ 47 :: c <+: res' ∧ res'.length = res.length := by
  obtain ⟨q, hq, hat, hzero⟩ := hp
  cases hq
  obtain ⟨res', hstore, hout', hlength⟩ := store_of_isPrefix hout (by omega) 47
  have hroom' : (out ++ [47]).length + c.length ≤ res'.length := by
    rw [List.length_append, List.length_singleton]
    omega
  obtain ⟨res'', hcopy, hout'', hlength'⟩ := strncpy_of_isPrefix hout'
    ((List.prefix_append c [0]).trans hat) hzero hroom'
  have hget : (done ++ some q :: rest)[done.length]? = some (some q) := by
    rw [List.getElem?_append_right le_rfl, Nat.sub_self]
    rfl
  rw [List.length_append, List.length_singleton] at hcopy
  refine ⟨res'', ?_, by simpa using hout'', hlength'.trans hlength⟩
  simp only [BuildState.round, hget, bind, Except.bind, hstore, strlen_of_at hat hzero, hcopy,
    List.length_append, List.length_cons, Nat.add_assoc, Nat.add_comm 1]
  rfl

/-- The loop that writes the components which are left. -/
theorem build_run (rest : List (Option Nat)) :
    ∀ done out res cs, Holds raw rest cs → out <+: res → out.length + size cs ≤ res.length →
      ∀ fuel, rest.length < fuel → ∃ s,
        While.run .endless (BuildState.more (done ++ rest)) (BuildState.round raw (done ++ rest))
          fuel ⟨res, out.length, done.length⟩ = .ok s ∧
        s.cur = (out ++ PathNormalForm.join 47 cs).length ∧
        out ++ PathNormalForm.join 47 cs <+: s.res ∧ s.res.length = res.length := by
  induction rest with
  | nil =>
    intro done out res cs hrest hout _ fuel hfuel
    obtain ⟨fuel, rfl⟩ := Nat.exists_eq_add_of_lt hfuel
    obtain rfl : cs = [] := List.forall₂_nil_left_iff.mp hrest
    have hmore : BuildState.more (done ++ []) ⟨res, out.length, done.length⟩ = .ok false := by
      rw [BuildState.more, List.append_nil, decide_eq_false (lt_irrefl _)]
    have hjoin : out ++ PathNormalForm.join 47 [] = out := List.append_nil out
    exact ⟨_, While.run_of_false hmore _, by rw [hjoin], by rwa [hjoin], rfl⟩
  | cons p rest ih =>
    intro done out res cs hrest hout hroom fuel hfuel
    obtain ⟨fuel, rfl⟩ := Nat.exists_eq_add_of_le' (Nat.one_le_of_lt hfuel)
    have hmore : BuildState.more (done ++ p :: rest) ⟨res, out.length, done.length⟩ =
        .ok true := by
      rw [BuildState.more, decide_eq_true (by simp)]
    have hfuel' : rest.length < fuel := by simpa using hfuel
    have hdone : (done ++ [p]).length = done.length + 1 := List.length_append
    have hcomp : done ++ p :: rest = done ++ [p] ++ rest := List.append_cons _ _ _
    cases p with
    | none =>
      have hround : BuildState.round raw (done ++ none :: rest) ⟨res, out.length, done.length⟩ =
          .ok ⟨res, out.length, done.length + 1⟩ := by
        have hget : (done ++ none :: rest)[done.length]? = some none := by
          rw [List.getElem?_append_right le_rfl, Nat.sub_self]
          rfl
        simp only [BuildState.round, hget]
        rfl
      obtain ⟨s, hrun, hs⟩ := ih (done ++ [none]) out res cs hrest hout hroom fuel hfuel'
      rw [hdone, ← hcomp] at hrun
      exact ⟨s, (While.run_of_true hmore hround fuel).trans hrun, hs⟩
    | some q =>
      rw [Holds, List.reduceOption_cons_of_some, List.map_cons] at hrest
      cases hrest with
      | @cons _ c _ cs hp hrest =>
        rw [show size (c :: cs) = c.length + 1 + size cs from rfl] at hroom
        obtain ⟨res', hround, hout', hlength⟩ := buildRound_some done rest hout hp
          (by omega)
        have hroom' : (out ++ 47 :: c).length + size cs ≤ res'.length := by
          rw [List.length_append, List.length_cons]
          omega
        obtain ⟨s, hrun, hcur, hs, hslength⟩ := ih (done ++ [some q]) (out ++ 47 :: c) res' cs
          hrest hout' hroom' fuel hfuel'
        rw [hdone, ← hcomp] at hrun
        rw [PathNormalForm.join_cons, ← List.cons_append, ← List.append_assoc]
        exact ⟨s, (While.run_of_true hmore hround fuel).trans hrun, hcur, hs,
          hslength.trans hlength⟩

theorem buildPath_holds (res : List UInt8) {comp : List (Option Nat)} (hcomp : Holds raw comp cs)
    (hroom : size cs < res.length) (hroot : 1 < res.length) :
    ∃ res', buildPath raw comp res 0 = .ok res' ∧
      PathNormalForm.render 47 cs ++ [0] <+: res' ∧ res'.length = res.length := by
  obtain ⟨s, hrun, hcur, hs, hlength⟩ := build_run comp [] [] res cs hcomp List.nil_prefix
    (by rw [List.length_nil]; omega) (comp.length + 1) (Nat.lt_succ_self _)
  rw [List.nil_append] at hrun hcur hs
  simp only [List.length_nil] at hrun
  rw [PathNormalForm.length_join] at hcur
  cases cs with
  | nil =>
    obtain ⟨res1, hstore1, hout1, hlength1⟩ := store_of_isPrefix hs (by
      rw [PathNormalForm.length_join]
      exact hlength ▸ hroom) 47
    obtain ⟨res2, hstore2, hout2, hlength2⟩ := store_of_isPrefix hout1 (by
      rw [hlength1, hlength]
      exact hroot) 0
    refine ⟨res2, ?_, hout2, (hlength2.trans hlength1).trans hlength⟩
    have hroot : s.cur = 0 := hcur
    have hstore1' : store s.res 0 47 = .ok res1 := hstore1
    have hstore2' : store res1 1 0 = .ok res2 := hstore2
    simp only [buildPath, bind, Except.bind, hrun, hroot, if_true, hstore1', hstore2']
  | cons c cs =>
    obtain ⟨res', hstore, hout, hlength'⟩ := store_of_isPrefix hs (by
      rw [PathNormalForm.length_join, hlength]
      exact hroom) 0
    refine ⟨res', ?_, hout, hlength'.trans hlength⟩
    have hcur0 : s.cur ≠ 0 := by
      rw [hcur, show size (c :: cs) = c.length + 1 + size cs from rfl]
      omega
    rw [PathNormalForm.length_join, ← hcur] at hstore
    simp only [buildPath, bind, Except.bind, hrun, if_neg hcur0, hstore]

end Building

section AbsolutePath

open PathNormalForm (normalized NormalForm)

variable {t : Str}

theorem load_of_isRooted (hat : t ++ [0] <+: buf) (hrooted : isRooted t = true) :
    ∃ c, load buf 0 = .ok c ∧ (c = 47 ∨ c = 92) ∧ c ∈ t := by
  cases t with
  | nil => cases hrooted
  | cons c rest => exact ⟨c, load_of_at (i := 0) hat, isSlash_iff.mp hrooted, List.mem_cons_self⟩

theorem size_lt_of_isRooted (hrooted : isRooted t = true) :
    size (resolve dot dots (components isSlash t)) < t.length + 1 := by
  cases t with
  | nil => cases hrooted
  | cons c rest =>
    have hle := PathNormalForm.size_le_of_sublist
      (PathNormalForm.resolve_sublist dot dots (components isSlash (c :: rest)))
    have hrest := PathNormalForm.size_components_le isSlash rest
    rw [components_cons rest hrooted] at hle ⊢
    rw [List.length_cons]
    omega

theorem mistPathAbsolute_of_rawPath {c : UInt8} (hload : load buf 0 = .ok c) (hc : c ≠ 0)
    (hraw : rawPath junk pathMax cwd buf = .ok (some raw)) (hat : t ++ [0] <+: raw) (hzero : 0 ∉ t)
    (hrooted : isRooted t = true) :
    ∃ res, mistPathAbsolute junk pathMax cwd buf = .ok (some res) ∧
      normalized isSlash dot dots 47 t ++ [0] <+: res ∧ res.length = t.length + 1 := by
  obtain ⟨d, hd, hslash, hdmem⟩ := load_of_isRooted hat hrooted
  have hd46 : d ≠ 46 := by rintro rfl; revert hslash; decide
  have hd58 : d ≠ 58 := by rintro rfl; revert hslash; decide
  -- the slashes are converted, and the first character is one
  obtain ⟨unix, hunix, hat', -⟩ := mistPathToUnixSlashes_holds hat hzero
  have hzero' : 0 ∉ t.map unixSlash := by
    intro hmem
    obtain ⟨a, ha, ha0⟩ := List.mem_map.mp hmem
    rw [unixSlash] at ha0
    split_ifs at ha0
    · cases ha0
    · exact hzero (ha0 ▸ ha)
  have hhead : ∃ rest, t.map unixSlash = 47 :: rest := by
    cases t with
    | nil => cases hrooted
    | cons a rest =>
      refine ⟨rest.map unixSlash, congrArg (· :: rest.map unixSlash) ?_⟩
      rcases isSlash_iff.mp hrooted with rfl | rfl
      · rfl
      · rfl
  have hchr : strchr unix 0 47 = .ok (some 0) := by
    obtain ⟨rest, hrest⟩ := hhead
    rw [strchr_of_at (i := 0) hat' hzero', hrest, if_pos List.mem_cons_self, List.idxOf_cons_self]
  -- nothing is copied in front of it
  obtain ⟨res0, hcopy, hlength0⟩ : ∃ res0, CharBuffer.strncpy (malloc junk (t.length + 1)) 0 unix 0 0 =
      .ok res0 ∧ res0.length = t.length + 1 := by
    have hnone : ([] : List UInt8) <+: unix.drop 0 := List.nil_prefix
    obtain ⟨res0, hcopy, -, hlength0⟩ := strncpy_of_isPrefix
      (List.nil_prefix (l := malloc junk (t.length + 1))) hnone List.not_mem_nil (Nat.zero_le _)
    exact ⟨res0, hcopy, hlength0.trans (length_malloc junk _)⟩
  obtain ⟨parts, hsplit, hpoints⟩ := splitPath_holds hat' hzero'
  rw [components_unixSlash] at hpoints
  obtain ⟨comp, hdots, hholds⟩ := removeDots_holds hpoints
  have hpos : 0 < t.length := List.length_pos_of_mem hdmem
  obtain ⟨res, hbuild, hres, hlength⟩ := buildPath_holds res0 hholds
    (by rw [hlength0]; exact size_lt_of_isRooted hrooted) (by omega)
  refine ⟨res, ?_, hres, hlength.trans hlength0⟩
  simp only [mistPathAbsolute, bind, Except.bind, hload, assert_of hc, hraw, hd, assert_of hd46,
    assert_of hd58, strlen_of_at (i := 0) hat hzero, hunix, hchr, hcopy, hsplit, hdots, hbuild]
  rfl

theorem mistPathAbsolute_of_long (junk : Nat → UInt8) (pathMax : Nat) (cwd : Directory)
    (path : PlainPath) (hrooted : isRooted path.val = false)
    (hlong : mistPathBufferSize pathMax ≤ cwd.val.length) :
    mistPathAbsolute junk pathMax cwd (path.val ++ [0]) = .ok none := by
  obtain ⟨path, hne, hzero, hcolon, htilde⟩ := path
  obtain ⟨c, rest, rfl⟩ := List.exists_cons_of_ne_nil hne
  have hload := load_of_at (i := 0) (List.prefix_refl (c :: (rest ++ [0])))
  have hc : c ≠ 0 := fun h => hzero (h ▸ List.mem_cons_self)
  dsimp only at hrooted ⊢
  rw [mistPathAbsolute, rawPath,
    mistPathIsAbsolute_of_plain (List.prefix_refl _) hne hzero hcolon htilde hrooted,
    List.cons_append, hload]
  simp only [bind, Except.bind, assert_of hc, Bool.false_eq_true, if_false, getcwd,
    if_neg (Nat.not_lt.mpr hlong)]
  rfl

/-- The result is a normal form in the allocated buffer, and it is its own result. -/
theorem mistPathAbsolute_normalForm (junk : Nat → UInt8) (pathMax : Nat) (cwd : Directory)
    (path : PlainPath)
    (hfits : isRooted path.val = true ∨ cwd.val.length < mistPathBufferSize pathMax) :
    ∃ raw res, rawPath junk pathMax cwd (path.val ++ [0]) = .ok (some raw) ∧
      mistPathAbsolute junk pathMax cwd (path.val ++ [0]) = .ok (some res) ∧
      res.length = (text raw 0).length + 1 ∧ 0 ∈ res ∧
      NormalForm isSlash dot dots 47 (text res 0) ∧ 92 ∉ text res 0 ∧
      text res 0 = normalized isSlash dot dots 47 (joined cwd path) ∧
      ∀ junk pathMax cwd, ∃ res', mistPathAbsolute junk pathMax cwd res = .ok (some res') ∧
        0 ∈ res' ∧ text res' 0 = text res 0 := by
  obtain ⟨raw, hraw, hat⟩ := rawPath_holds junk cwd path hfits
  have hzero := zero_notMem_rawText cwd.prop.2 path.prop.2.1
  obtain ⟨c, rest, hcons⟩ := List.exists_cons_of_ne_nil path.prop.1
  have hload : load (path.val ++ [0]) 0 = .ok c := by
    rw [hcons]
    exact load_of_at (i := 0) (List.prefix_refl _)
  have hc : c ≠ 0 := fun h => path.prop.2.1 (by rw [hcons, h]; exact List.mem_cons_self)
  obtain ⟨res, hres, hresat, hlength⟩ := mistPathAbsolute_of_rawPath hload hc hraw hat hzero
    (isRooted_rawText cwd.prop.1)
  have hnot {s : Str} {a : UInt8} (ha : a ≠ 47) (hs : isSlash a = true ∨ a ∉ s) :
      a ∉ normalized isSlash dot dots 47 s := by
    intro hmem
    rcases PathNormalForm.mem_normalized hmem with hsep | ⟨has, hslash⟩
    · exact ha hsep
    · rcases hs with hs | hs
      · rw [hs] at hslash
        cases hslash
      · exact hs has
  have htext := text_of_at (i := 0) hresat (hnot (by decide) (Or.inr hzero))
  refine ⟨raw, res, hraw, hres, ?_, zero_mem_of_at (i := 0) hresat, ?_, ?_, ?_, ?_⟩
  · rw [hlength, text_of_at (i := 0) hat hzero]
  · rw [htext]
    exact PathNormalForm.normalForm_normalized _ rfl
  · rw [htext]
    exact hnot (by decide) (Or.inl rfl)
  · rw [htext, normalized, components_rawText]
    rfl
  · intro junk pathMax cwd
    have hrooted : isRooted (text res 0) = true := by
      rw [htext, isRooted, normalized, PathNormalForm.head_render]
      rfl
    rw [← htext] at hresat
    obtain ⟨d, hd, hslash, -⟩ := load_of_isRooted hresat hrooted
    have hraw : rawPath junk pathMax cwd res = .ok (some (text res 0 ++ [0])) :=
      rawPath_of_isRooted hresat (zero_notMem_text res 0) hrooted
    obtain ⟨res', hres', hresat', -⟩ := mistPathAbsolute_of_rawPath hd
      (by rintro rfl; revert hslash; decide) hraw (List.prefix_refl _) (zero_notMem_text res 0)
      hrooted
    have hsame : normalized isSlash dot dots 47 (text res 0) = text res 0 := by
      rw [htext]
      exact PathNormalForm.normalized_normalized rfl _
    rw [hsame] at hresat'
    exact ⟨res', hres', zero_mem_of_at (i := 0) hresat',
      text_of_at (i := 0) hresat' (zero_notMem_text res 0)⟩

/-- The parent of the root is the root. -/
theorem mistPathAbsolute_normalForm_root :
    ∃ raw res, rawPath (fun _ => 0) 4096 [47] [46, 46, 0] = .ok (some raw) ∧
      mistPathAbsolute (fun _ => 0) 4096 [47] [46, 46, 0] = .ok (some res) ∧
      res.length = (text raw 0).length + 1 ∧ 0 ∈ res ∧
      NormalForm isSlash dot dots 47 (text res 0) ∧ 92 ∉ text res 0 ∧
      text res 0 = [47] ∧
      ∀ junk pathMax cwd, ∃ res', mistPathAbsolute junk pathMax cwd res = .ok (some res') ∧
        0 ∈ res' ∧ text res' 0 = text res 0 :=
  mistPathAbsolute_normalForm (fun _ => 0) 4096 ⟨[47], by decide⟩ ⟨[46, 46], by decide⟩
    (Or.inr (by decide))

/-- A directory whose path is longer than `PATH_MAX`. -/
def longDirectory : Directory :=
  ⟨47 :: List.replicate 4096 97, rfl, fun h => by
    rcases List.mem_cons.mp h with h | h
    · exact absurd h (by decide)
    · exact absurd (List.eq_of_mem_replicate h) (by decide)⟩

/-- In a long directory there is no result for the path "b". -/
theorem mistPathAbsolute_longDirectory :
    ¬ ∀ (pathMax : Nat) (cwd : Directory) (path : PlainPath),
      ∃ res, mistPathAbsolute (fun _ => 0) pathMax cwd (path.val ++ [0]) = .ok (some res) := by
  intro h
  obtain ⟨res, hres⟩ := h 4096 longDirectory ⟨[98], by decide⟩
  have hlong : mistPathBufferSize 4096 ≤ longDirectory.val.length := by
    rw [longDirectory, List.length_cons, List.length_replicate]
    decide
  rw [mistPathAbsolute_of_long _ _ _ _ rfl hlong] at hres
  cases hres

end AbsolutePath

end MistEngine
end KedrAux
