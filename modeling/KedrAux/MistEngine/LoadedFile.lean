import KedrAux.MistEngine.MultiLine
import KedrAux.MistEngine.SingleLine

/-!
# Whole configuration files

The loop of `mist_load_config_file` over definitions, comments and blank lines in any order.
-/

namespace KedrAux
namespace MistEngine

open CharBuffer
open MistEngine.Parser (isSpace stringTrim)

/-- `feof(fs)` after a round that leaves `rest` of `fs`: the end is met when a line is read up to
it that has no newline, and when there is no line. -/
def feof (fs rest : Str) : Bool :=
  rest.isEmpty && fs.getLast? != some 10

/-- A round of the loop, with the condition at its end. -/
def LoadState.body (junk : Nat → UInt8) (size : Int) (s : LoadState × Bool) :
    Except ConfigStop (LoadState × Bool) := do
  let s' ← s.1.round junk size
  return (s', feof s.1.fs s'.fs)

def LoadState.more (s : LoadState × Bool) : Except ConfigStop Bool :=
  .ok !s.2

/-- `mist_load_config_file`, with what it adds to the string map. -/
def mistLoadConfigFile (junk : Nat → UInt8) (file : Str) :
    Except ConfigStop (List (Str × Str)) := do
  let s ← access (LoadState.start junk file)
  let s ← While.run (.fault .endless) LoadState.more (LoadState.body junk (configSize file))
    (file.length + 2) (s, false)
  return s.1.sm

/-- A definition, or a comment or a blank line. -/
inductive ConfigItem where
  | single (head : DefinitionHead) (lines : LogicalLines) (not_multi : ¬ [62, 62] <+: lines.text)
  | multi (definition : MultilineDefinition)
  | ignored (line : Str) (chars : 0 ∉ line ∧ 10 ∉ line)
      (comment : ∀ c, (stringTrim line).head? = some c → c = 35)

namespace ConfigItem

def text : ConfigItem → Str
  | .single head lines _ => head.text ++ lines.text
  | .multi m => m.text
  | .ignored line _ _ => line

def definition? : ConfigItem → Option (Str × Str)
  | .single head lines _ => some (head.name, mergedValue lines.trimmed)
  | .multi m => some (m.head.name, stringTrim m.joined)
  | .ignored _ _ _ => none

/-- The part may stand at the end of a file, without a newline behind it. -/
def EndsFile : ConfigItem → Prop
  | .single _ lines _ => lines.continued = [] ∨ lines.last.content ≠ []
  | .multi _ => True
  | .ignored line _ _ => line ≠ []

theorem EndsFile.getLast? {item : ConfigItem} (h : item.EndsFile) :
    ∃ c, item.text.getLast? = some c ∧ c ≠ 10 := by
  have hlast : ∀ {line : Str} (before : Str), line ≠ [] → 10 ∉ line →
      ∃ c, (before ++ line).getLast? = some c ∧ c ≠ 10 := by
    intro line before hne hline
    refine ⟨line.getLast hne, ?_, fun heq => hline (heq ▸ List.getLast_mem hne)⟩
    rw [List.getLast?_append_of_ne_nil _ hne, List.getLast?_eq_some_getLast hne]
  cases item with
  | single head lines hone =>
    by_cases hcontent : lines.last.content = []
    · -- the text ends in the sign after the name
      have hnil := h.resolve_right (not_not_intro hcontent)
      refine ⟨61, ?_, by decide⟩
      simp [text, LogicalLines.text, DefinitionHead.text, hnil, hcontent]
    · rw [text, LogicalLines.text, ← List.append_assoc]
      exact hlast _ hcontent lines.last.content_chars.2
  | multi m =>
    rw [text, MultilineDefinition.text, ← List.cons_append, ← List.append_assoc]
    refine hlast _ (fun hnil => ?_) m.marker_chars
    have hmarker := m.marker_eq
    rw [hnil] at hmarker
    exact absurd hmarker (by decide)
  | ignored line hchars hcomment => exact hlast [] h hchars.2

end ConfigItem

/-- The parts with newlines behind them, and a last part without one if there is any. -/
def fileText (items : List ConfigItem) (last : Option ConfigItem) : Str :=
  (items.flatMap fun item => item.text ++ [10]) ++ last.elim [] ConfigItem.text

section Rounds

variable {size : Int} {s : LoadState}

theorem LoadState.Ready.round_ignored (junk : Nat → UInt8) (hs : s.Ready size)
    (hsmall : size < 2 ^ 31) {line tail : Str} (hchars : 0 ∉ line ∧ 10 ∉ line)
    (hcomment : ∀ c, (stringTrim line).head? = some c → c = 35)
    (htail : tail = [] ∨ tail.head? = some 10) (hne : line ++ tail ≠ [])
    (hfs : s.fs = line ++ tail) :
    ∃ s', s.round junk size = .ok s' ∧ s'.sm = s.sm ∧ s'.fs = tail.drop 1 ∧ s'.Ready size := by
  obtain ⟨ms, hms, -, htext, hbuf, hround⟩ :=
    hs.round_eq junk hsmall hfs hchars.1 hchars.2 htail hne
  obtain ⟨ms', htrim, hms', htext', hbuf', -⟩ := mistStringTrim_text hms
  rw [htext, stringTrim_append_newline htail] at htext'
  have htype : ∃ type, mistCfgGetLineType ms = .ok (type, none, ms') ∧
      (type = .mltComment ∨ type = .mltBlank) := by
    have hat := hms'.at_text
    rw [htext'] at hat
    simp only [mistCfgGetLineType, htrim, bind, Except.bind]
    cases hline : stringTrim line with
    | nil =>
      rw [hline] at hat
      rw [load_of_at hat]
      exact ⟨_, rfl, .inr rfl⟩
    | cons c t =>
      rw [hline] at hat
      rw [load_of_at hat, hcomment c (by rw [hline]; rfl)]
      exact ⟨_, rfl, .inl rfl⟩
  obtain ⟨type, htype, hcases⟩ := htype
  refine ⟨⟨ms', tail.drop 1, nextLine s.lineNo, s.sm⟩, ?_, rfl, rfl, ?_⟩
  · rw [hround, LoadState.define, htype]
    rcases hcases with rfl | rfl <;> rfl
  · have hfits := hs.fits
    have hlength := hms'.length_text
    have hone := List.length_pos_iff.mpr hne
    rw [List.length_append] at hone
    rw [hfs, List.length_append] at hfits
    refine ⟨by dsimp only; omega, ?_, hms'.size, ?_⟩
    · rw [hbuf', hbuf]
      exact hs.buf_size
    · rw [hs.nextLine_eq hsmall, List.length_drop]
      dsimp only
      omega

/-- The step lemma: a part of the file is read, and only its definition is added. -/
theorem LoadState.Ready.round_item (junk : Nat → UInt8) (hs : s.Ready size)
    (hsmall : size < 2 ^ 31) {item : ConfigItem} {tail : Str}
    (htail : tail = [] ∧ item.EndsFile ∨ tail.head? = some 10) (hfs : s.fs = item.text ++ tail) :
    ∃ s', s.round junk size = .ok s' ∧ s'.sm = s.sm ++ item.definition?.toList ∧
      s'.fs = tail.drop 1 ∧ s'.Ready size := by
  have htail' := htail.imp And.left id
  have hend : item.EndsFile ∨ ∀ line : Str, line ++ tail ≠ [] := by
    rcases htail with ⟨-, h⟩ | h
    · exact .inl h
    · refine .inr fun line hnil => ?_
      rw [(List.append_eq_nil_iff.mp hnil).2] at h
      cases h
  cases item with
  | single head lines hone =>
    rw [ConfigItem.text, List.append_assoc] at hfs
    refine round_merges junk hs hsmall head lines htail' ?_ hone hfs
    rcases hend with h | h
    · exact h.imp_right fun hne hnil => hne (List.append_eq_nil_iff.mp hnil).1
    · exact .inr (h _)
  | multi m =>
    obtain ⟨s', hrun, hsm, hrest, -, hs'⟩ := round_trims junk hs hsmall m htail' hfs
    exact ⟨s', hrun, hsm, hrest, hs'⟩
  | ignored line hchars hcomment =>
    obtain ⟨s', hrun, hsm, hrest⟩ :=
      hs.round_ignored junk hsmall hchars hcomment htail' (hend.elim
        (fun hne hnil => hne (List.append_eq_nil_iff.mp hnil).1) fun h => h line) hfs
    exact ⟨s', hrun, by rw [hsm]; exact (List.append_nil _).symm, hrest⟩

theorem LoadState.Ready.round_end (junk : Nat → UInt8) (hs : s.Ready size)
    (hsmall : size < 2 ^ 31) (hfs : s.fs = []) :
    ∃ s', s.round junk size = .ok s' ∧ s'.sm = s.sm ∧ s'.fs = [] := by
  have hfits := hs.fits
  have hgets : fgets (s.ms.buf.set 0 0) 0 (intOfLong size) [] = .ok none := by
    rw [intOfLong_eq (by omega) hsmall]
    exact if_pos (Or.inr ⟨by omega, rfl⟩)
  refine ⟨{ s with ms := ⟨s.ms.buf.set 0 0, 0⟩ }, ?_, rfl, hfs⟩
  rw [LoadState.round, hs.reset_eq]
  simp only [bind, Except.bind, access, hfs, hgets]
  rfl

theorem LoadState.body_eq {junk : Nat → UInt8} {s' : LoadState}
    (h : s.round junk size = .ok s') (stopped : Bool) :
    LoadState.body junk size (s, stopped) = .ok (s', feof s.fs s'.fs) := by
  rw [LoadState.body, h]
  rfl

theorem length_le_fileText (items : List ConfigItem) (last : Option ConfigItem) :
    items.length ≤ (fileText items last).length := by
  induction items with
  | nil => exact Nat.zero_le _
  | cons item items ih =>
    simp only [fileText, List.flatMap_cons, List.length_append, List.length_cons] at ih ⊢
    omega

theorem feof_cons {last : Option ConfigItem} (hlast : ∀ item ∈ last, item.EndsFile)
    (item : ConfigItem) (items : List ConfigItem) :
    feof (fileText (item :: items) last) (fileText items last) = false := by
  cases last with
  | some item' =>
    obtain ⟨c, hc, -⟩ := (hlast item' rfl).getLast?
    have hne : item'.text ≠ [] := by
      intro hnil
      rw [hnil] at hc
      cases hc
    simp [feof, fileText, hne]
  | none =>
    cases items using List.reverseRecOn with
    | nil => simp [feof, fileText]
    | append_singleton items item' => simp [feof, fileText]

/-- The run lemma, by induction on what is left of the file. -/
theorem run_body (junk : Nat → UInt8) (hsmall : size < 2 ^ 31) (items : List ConfigItem)
    {last : Option ConfigItem} (hlast : ∀ item ∈ last, item.EndsFile) {fuel : Nat}
    (hfuel : items.length + 2 ≤ fuel) (hs : s.Ready size) (hfs : s.fs = fileText items last) :
    ∃ s', While.run (.fault .endless) LoadState.more (LoadState.body junk size) fuel (s, false) =
        .ok (s', true) ∧
      s'.sm = s.sm ++ (items ++ last.toList).filterMap ConfigItem.definition? := by
  have hmore : ∀ s : LoadState, LoadState.more (s, false) = .ok true := fun _ => rfl
  have hstop : ∀ s : LoadState, LoadState.more (s, true) = .ok false := fun _ => rfl
  induction items generalizing s fuel with
  | nil =>
    obtain ⟨fuel, rfl⟩ := Nat.exists_eq_add_of_le' hfuel
    have hend : ∃ s', s.round junk size = .ok s' ∧ feof s.fs s'.fs = true ∧
        s'.sm = s.sm ++ last.toList.filterMap ConfigItem.definition? := by
      cases last with
      | none =>
        obtain ⟨s', hround, hsm, hrest⟩ := hs.round_end junk hsmall hfs
        exact ⟨s', hround, by rw [hrest, hfs]; rfl, by simp [hsm]⟩
      | some item =>
        have hitem := hlast item rfl
        obtain ⟨c, hc, hne⟩ := hitem.getLast?
        have htext : s.fs = item.text ++ [] := by rw [hfs, List.append_nil]; rfl
        obtain ⟨s', hround, hsm, hrest, -⟩ :=
          hs.round_item junk hsmall (.inl ⟨rfl, hitem⟩) htext
        refine ⟨s', hround, by simp [feof, hrest, htext, hc, hne], ?_⟩
        rw [hsm]
        cases h : item.definition? <;> simp [h]
    obtain ⟨s', hround, heof, hsm⟩ := hend
    have hbody := LoadState.body_eq hround false
    rw [heof] at hbody
    exact ⟨s', (While.run_of_true (hmore s) hbody _).trans (While.run_of_false (hstop s') _), hsm⟩
  | cons item items ih =>
    obtain ⟨fuel, rfl⟩ := Nat.exists_eq_add_of_le' (Nat.one_le_of_lt hfuel)
    have htext : s.fs = item.text ++ 10 :: fileText items last := by simp [hfs, fileText]
    obtain ⟨s', hround, hsm, hrest, hs'⟩ := hs.round_item junk hsmall (.inr rfl) htext
    have hbody := LoadState.body_eq hround false
    rw [hrest, List.drop_one, List.tail_cons, hfs, feof_cons hlast] at hbody
    obtain ⟨s'', hrun, hsm'⟩ := ih (Nat.le_of_succ_le_succ hfuel) hs' hrest
    refine ⟨s'', (While.run_of_true (hmore s) hbody _).trans hrun, ?_⟩
    rw [hsm', hsm, List.cons_append, List.filterMap_cons, List.append_assoc]
    cases item.definition? <;> rfl

/--
Every file of less than two gibibytes that consists of definitions, comments and blank lines, with
or without a newline at its end, is loaded: its definitions are added in their order, and nothing
else is.
-/
theorem mistLoadConfigFile_loads (junk : Nat → UInt8) (items : List ConfigItem)
    (last : Option ConfigItem) (hlast : ∀ item ∈ last, item.EndsFile)
    (hsmall : configSize (fileText items last) < 2 ^ 31) :
    mistLoadConfigFile junk (fileText items last) =
      .ok ((items ++ last.toList).filterMap ConfigItem.definition?) := by
  have hmax : (fileText items last).length + 3 < sizeMax := by
    rw [configSize] at hsmall
    rw [sizeMax]
    omega
  obtain ⟨s, hstart, hfs, hsm, hs⟩ := LoadState.start_ready junk (fileText items last) hmax
  have hfuel := Nat.add_le_add_right (length_le_fileText items last) 2
  obtain ⟨s', hrun, hsm'⟩ := run_body junk hsmall items hlast hfuel hs hfs
  simp only [mistLoadConfigFile, bind, Except.bind, hstart, access, hrun, hsm', hsm]
  rfl

/-- A comment, a blank line, and "n=a" without a newline. -/
theorem mistLoadConfigFile_loads_threeLines :
    mistLoadConfigFile (fun _ => 0) [35, 98, 10, 10, 110, 61, 97] = .ok [([110], [97])] :=
  mistLoadConfigFile_loads (fun _ => 0)
    [.ignored [35, 98] (by decide) (by
        rw [show stringTrim [35, 98] = [35, 98] by decide]
        simp),
      .ignored [] (by decide) (by
        rw [show stringTrim [] = [] from rfl]
        simp)]
    (some (.single ⟨[], [110], [], by simp, by simp, by simp, by simp; decide, by simp⟩
      ⟨[], [97], by decide, by decide⟩ (by decide)))
    (fun item hitem => by
      cases hitem
      exact .inl rfl)
    (by decide)

end Rounds

end MistEngine
end KedrAux
