import KedrAux.Lib.IntervalCover
import KedrAux.MemRw.Blocks

/-!
# Jump tables that overlap

A jump table is scanned up to the first word that is not an address in the function, so tables
that overlap end together.  `resolve_jtables_overlaps` compares the new table with the recorded
ones, the latest of them first, and cuts it or the recorded one.  The tables it compares may have
been cut before, and then they do not end together any more.
-/

namespace KedrAux
namespace MemRw
namespace Blocks

open IntervalCover

section Resolve

variable (w : Nat)

abbrev JumpTable.bytes (t : JumpTable) : Nat := t.num * w

abbrev tableRange (t : JumpTable) : Finset Nat := interval JumpTable.addr (JumpTable.bytes w) t

abbrev tablesCover (tables : List JumpTable) : Finset Nat :=
  cover JumpTable.addr (JumpTable.bytes w) tables

abbrev TablesApart (tables : List JumpTable) : Prop :=
  Apart JumpTable.addr (JumpTable.bytes w) tables

/-- No number of elements gets below zero while the new table is compared with the others. -/
def NoWrap (jtable : JumpTable) : List JumpTable → Prop
  | [] => True
  | pos :: tables =>
    if !jtablesOverlap w jtable pos then NoWrap jtable tables
    else if jtable.addr = pos.addr then NoWrap { jtable with num := 0 } tables
    else if pos.addr < jtable.addr then jtable.num ≤ pos.num ∧ NoWrap jtable tables
    else pos.num ≤ jtable.num ∧
      NoWrap { jtable with num := (jtable.num + 2 ^ 32 - pos.num) % 2 ^ 32 } tables

/-- The recorded tables are disjoint, and they cover what was scanned. -/
structure Resolved (scanned tables : List JumpTable) : Prop where
  apart : TablesApart w tables
  cover : tablesCover w tables = tablesCover w scanned

/-- A table that overlaps the new one was scanned up to the same address. -/
def EndTogether (scanned : List JumpTable) (jtable : JumpTable) : Prop :=
  ∀ t ∈ scanned, ¬ Disjoint (tableRange w t) (tableRange w jtable) →
    t.addr + t.bytes w = jtable.addr + jtable.bytes w

/-- A recorded table with elements that begins inside the new one, behind its first byte. -/
def Inside (jtable t : JumpTable) : Prop :=
  0 < t.num ∧ jtable.addr < t.addr ∧ t.addr < jtable.addr + jtable.bytes w

instance (jtable t : JumpTable) : Decidable (Inside w jtable t) :=
  inferInstanceAs (Decidable (_ ∧ _ ∧ _))

def insideTables (jtable : JumpTable) (tables : List JumpTable) : List JumpTable :=
  tables.filter fun t => decide (Inside w jtable t)

/-- Number of elements in the tables inside the new one. -/
def insideNum (jtable : JumpTable) (tables : List JumpTable) : Nat :=
  ((insideTables w jtable tables).map JumpTable.num).sum

/-- The new table begins inside the recorded one, behind its first byte. -/
def Cuts (jtable t : JumpTable) : Prop :=
  t.addr < jtable.addr ∧ jtable.addr < t.addr + t.bytes w

instance (jtable t : JumpTable) : Decidable (Cuts w jtable t) :=
  inferInstanceAs (Decidable (_ ∧ _))

/-- Each table inside the new one is farther from the end than those before it in the list are
long together, and the table that the new one cuts comes behind all of them. -/
def Sequenced (jtable : JumpTable) (tables : List JumpTable) : Prop :=
  ∀ l t r, tables = l ++ t :: r →
    (Inside w jtable t → t.addr + insideNum w jtable l * w < jtable.addr + jtable.bytes w) ∧
    (Cuts w jtable t → ∀ t' ∈ r, ¬ Inside w jtable t')

/-- The new table begins where a recorded one with elements does, or the order of the recorded
ones fits it. -/
def InOrder (jtable : JumpTable) (tables : List JumpTable) : Prop :=
  (∃ t ∈ tables, 0 < t.num ∧ t.addr = jtable.addr) ∨ Sequenced w jtable tables

end Resolve

section Step

variable {w b n : Nat} {t pos : JumpTable} {tables l r : List JumpTable}

variable {jtable : JumpTable}

theorem jtablesOverlap_iff :
    jtablesOverlap w jtable pos = true ↔
      (pos.addr ≤ jtable.addr ∧ jtable.addr < pos.addr + pos.bytes w) ∨
        (jtable.addr < pos.addr ∧ pos.addr < jtable.addr + jtable.bytes w) := by
  rw [jtablesOverlap]
  split_ifs with hle
  · rw [decide_eq_true_iff]
    constructor
    · intro h
      exact Or.inl ⟨hle, h⟩
    · rintro (h | h)
      · exact h.2
      · omega
  · rw [decide_eq_true_iff]
    constructor
    · intro h
      exact Or.inr ⟨by omega, h⟩
    · rintro (h | h)
      · omega
      · exact h.2

theorem mem_insideTables : t ∈ insideTables w jtable tables ↔ t ∈ tables ∧ Inside w jtable t := by
  rw [insideTables, List.mem_filter, decide_eq_true_iff]

theorem insideNum_cons_of_inside (h : Inside w jtable t) :
    insideNum w jtable (t :: r) = t.num + insideNum w jtable r := by
  rw [insideNum, insideTables, List.filter_cons, if_pos (by simpa using h), List.map_cons,
    List.sum_cons]
  rfl

theorem insideNum_cons_of_not_inside (h : ¬ Inside w jtable t) :
    insideNum w jtable (t :: r) = insideNum w jtable r := by
  rw [insideNum, insideTables, List.filter_cons, if_neg (by simpa using h)]
  rfl

@[simp] theorem insideNum_append (jtable : JumpTable) (l r : List JumpTable) :
    insideNum w jtable (l ++ r) = insideNum w jtable l + insideNum w jtable r := by
  rw [insideNum, insideTables, List.filter_append, List.map_append, List.sum_append]
  rfl

theorem insideNum_append_singleton_of_inside (h : Inside w jtable t) :
    insideNum w jtable (l ++ [t]) = insideNum w jtable l + t.num := by
  rw [insideNum_append, insideNum_cons_of_inside h]
  rfl

theorem insideNum_append_singleton_of_not_inside (h : ¬ Inside w jtable t) :
    insideNum w jtable (l ++ [t]) = insideNum w jtable l := by
  rw [insideNum_append, insideNum_cons_of_not_inside h]
  rfl

theorem insideNum_eq_zero (h : ∀ t ∈ tables, ¬ Inside w jtable t) :
    insideNum w jtable tables = 0 := by
  induction tables with
  | nil => rfl
  | cons t tables ih =>
    rw [insideNum_cons_of_not_inside (h t List.mem_cons_self)]
    exact ih fun t' ht' => h t' (List.mem_cons_of_mem t ht')

/-- A recorded table that is cut at the beginning of the new one loses `c` elements. -/
def cutTable (w b c : Nat) (t : JumpTable) : JumpTable :=
  if Cuts w ⟨b, 0⟩ t then { t with num := t.num - c } else t

theorem cutTable_of_not_cuts {c : Nat} (h : ¬ Cuts w ⟨b, 0⟩ t) : cutTable w b c t = t :=
  if_neg h

theorem sub_mod_of_le {m k : Nat} (hle : k ≤ m) (hm : m < 2 ^ 32) :
    (m + 2 ^ 32 - k) % 2 ^ 32 = m - k := by
  rw [Nat.sub_add_comm hle, Nat.add_mod_right, Nat.mod_eq_of_lt (by omega)]

/-- No recorded table with elements begins where the new one does. -/
def NoneAt (b : Nat) (tables : List JumpTable) : Prop :=
  ∀ t ∈ tables, t.addr = b → t.num = 0

/-- What is done to tables in order, when no table begins where the new one does. -/
theorem resolve_of_order (r : List JumpTable) :
    ∀ l, Sequenced w ⟨b, n⟩ (l ++ r) → NoneAt b r → (∀ t ∈ r, t.num < 2 ^ 32) → n < 2 ^ 32 →
    insideNum w ⟨b, n⟩ (l ++ r) ≤ n →
    (∀ t ∈ r, Cuts w ⟨b, 0⟩ t → n - insideNum w ⟨b, n⟩ (l ++ r) ≤ t.num) →
    resolveJtablesOverlaps w ⟨b, n - insideNum w ⟨b, n⟩ l⟩ r =
        (⟨b, n - insideNum w ⟨b, n⟩ (l ++ r)⟩,
          r.map (cutTable w b (n - insideNum w ⟨b, n⟩ (l ++ r)))) ∧
      NoWrap w ⟨b, n - insideNum w ⟨b, n⟩ l⟩ r := by
  induction r with
  | nil =>
    intro l _ _ _ _ _ _
    rw [List.append_nil]
    exact ⟨rfl, trivial⟩
  | cons t r ih =>
    intro l horder hnone hbound hn hle hcut
    have hcons : l ++ t :: r = l ++ [t] ++ r := List.append_cons l t r
    have hrest := ih (l ++ [t]) (hcons ▸ horder)
      (fun t' ht' => hnone t' (List.mem_cons_of_mem t ht'))
      (fun t' ht' => hbound t' (List.mem_cons_of_mem t ht')) hn (hcons ▸ hle)
      (fun t' ht' => hcons ▸ hcut t' (List.mem_cons_of_mem t ht'))
    rw [← hcons] at hrest
    obtain ⟨hfar, hbehind⟩ := horder l t r rfl
    have htbound := hbound t List.mem_cons_self
    by_cases hinside : Inside w ⟨b, n⟩ t
    · -- the new table loses the elements of the recorded one
      have hsplit : insideNum w ⟨b, n⟩ (l ++ t :: r) =
          insideNum w ⟨b, n⟩ l + (t.num + insideNum w ⟨b, n⟩ r) := by
        rw [insideNum_append, insideNum_cons_of_inside hinside]
      have hlt : t.addr < b + (n - insideNum w ⟨b, n⟩ l) * w := by
        have hfar' := hfar hinside
        dsimp only [JumpTable.bytes] at hfar'
        have hmul := Nat.mul_le_mul_right w (show insideNum w ⟨b, n⟩ l ≤ n by omega)
        rw [Nat.sub_mul]
        omega
      have hb : b < t.addr := hinside.2.1
      have hover : jtablesOverlap w ⟨b, n - insideNum w ⟨b, n⟩ l⟩ t = true :=
        jtablesOverlap_iff.mpr (Or.inr ⟨hb, hlt⟩)
      have hnum : (n - insideNum w ⟨b, n⟩ l + 2 ^ 32 - t.num) % 2 ^ 32 =
          n - insideNum w ⟨b, n⟩ (l ++ [t]) := by
        rw [insideNum_append_singleton_of_inside hinside, sub_mod_of_le (by omega) (by omega)]
        omega
      have hnot : ¬ Cuts w ⟨b, 0⟩ t := fun h => absurd h.1 (by exact Nat.not_lt.mpr hb.le)
      rw [resolveJtablesOverlaps, NoWrap]
      simp only [hover, Bool.not_true, Bool.false_eq_true, if_false, if_neg (Nat.ne_of_lt hb),
        if_neg (Nat.not_lt.mpr hb.le), hnum, hrest.1, List.map_cons, cutTable_of_not_cuts hnot]
      exact ⟨trivial, by omega, hrest.2⟩
    · have hsame := insideNum_append_singleton_of_not_inside (l := l) hinside
      rw [hsame] at hrest
      by_cases hcuts : Cuts w ⟨b, 0⟩ t
      · -- the recorded table is cut, behind all tables inside the new one
        have hall : insideNum w ⟨b, n⟩ (l ++ t :: r) = insideNum w ⟨b, n⟩ l := by
          rw [insideNum_append, insideNum_cons_of_not_inside hinside,
            insideNum_eq_zero (hbehind hcuts), Nat.add_zero]
        have hlt : t.addr < b := hcuts.1
        have hover : jtablesOverlap w ⟨b, n - insideNum w ⟨b, n⟩ l⟩ t = true :=
          jtablesOverlap_iff.mpr (Or.inl ⟨hlt.le, hcuts.2⟩)
        have hcle := hcut t List.mem_cons_self hcuts
        rw [hall] at hcle
        have hnum := sub_mod_of_le hcle htbound
        rw [resolveJtablesOverlaps, NoWrap]
        simp only [hover, Bool.not_true, Bool.false_eq_true, if_false, if_neg (Nat.ne_of_gt hlt),
          if_pos hlt, hrest.1, hnum, List.map_cons]
        exact ⟨by rw [cutTable, if_pos hcuts, hall], hcle, hrest.2⟩
      · have hmap : cutTable w b (n - insideNum w ⟨b, n⟩ (l ++ t :: r)) t = t :=
          cutTable_of_not_cuts hcuts
        rw [resolveJtablesOverlaps, NoWrap]
        by_cases hover : jtablesOverlap w ⟨b, n - insideNum w ⟨b, n⟩ l⟩ t = true
        · -- an overlap with a table without elements
          have hlt : b < t.addr ∧ t.num = 0 := by
            rcases jtablesOverlap_iff.mp hover with ⟨hle', hend⟩ | ⟨hlt, hend⟩
            · dsimp only at hle' hend
              rcases Nat.lt_or_eq_of_le hle' with hlt | heq
              · exact absurd ⟨hlt, hend⟩ hcuts
              · have hzero := hnone t List.mem_cons_self heq
                rw [JumpTable.bytes, hzero, Nat.zero_mul] at hend
                omega
            · dsimp only at hlt hend
              have hmul := Nat.mul_le_mul_right w (Nat.sub_le n (insideNum w ⟨b, n⟩ l))
              exact ⟨hlt, Nat.eq_zero_of_not_pos fun hpos =>
                hinside ⟨hpos, hlt, Nat.lt_of_lt_of_le hend (Nat.add_le_add_left hmul b)⟩⟩
          have hnum : (n - insideNum w ⟨b, n⟩ l + 2 ^ 32 - t.num) % 2 ^ 32 =
              n - insideNum w ⟨b, n⟩ l := by
            rw [hlt.2, sub_mod_of_le (Nat.zero_le _) (by omega), Nat.sub_zero]
          simp only [hover, Bool.not_true, Bool.false_eq_true, if_false,
            if_neg (Nat.ne_of_lt hlt.1), if_neg (Nat.not_lt.mpr hlt.1.le), hnum, hrest.1,
            List.map_cons, hmap]
          exact ⟨trivial, by omega, hrest.2⟩
        · simp only [hover, Bool.not_false, if_true, hrest.1, List.map_cons, hmap]
          exact ⟨trivial, hrest.2⟩

/-- The tables that begin in the new one or where it begins. -/
def fromTables (w : Nat) (jtable : JumpTable) (tables : List JumpTable) : List JumpTable :=
  tables.filter fun t => decide (jtable.addr ≤ t.addr ∧ t.addr < jtable.addr + jtable.bytes w)

def fromNum (w : Nat) (jtable : JumpTable) (tables : List JumpTable) : Nat :=
  ((fromTables w jtable tables).map JumpTable.num).sum

theorem resolve_of_empty (h : ∀ t ∈ r, t.num < 2 ^ 32) :
    resolveJtablesOverlaps w ⟨b, 0⟩ r = (⟨b, 0⟩, r) ∧ NoWrap w ⟨b, 0⟩ r := by
  induction r with
  | nil => exact ⟨rfl, trivial⟩
  | cons t r ih =>
    have hrest := ih fun t' ht' => h t' (List.mem_cons_of_mem t ht')
    have hnum := sub_mod_of_le (Nat.zero_le t.num) (h t List.mem_cons_self)
    rw [resolveJtablesOverlaps, NoWrap]
    by_cases hover : jtablesOverlap w ⟨b, 0⟩ t = true
    · have hle : t.addr ≤ b := by
        rcases jtablesOverlap_iff.mp hover with hin | ⟨hlt, hend⟩
        · exact hin.1
        · rw [JumpTable.bytes, Nat.zero_mul] at hend
          exact absurd (Nat.lt_trans hlt hend) (Nat.lt_irrefl b)
      simp only [hover, Bool.not_true, Bool.false_eq_true, if_false, hrest.1, hnum]
      rcases Nat.lt_or_eq_of_le hle with hlt | heq
      · simp only [if_neg (Nat.ne_of_gt hlt), if_pos hlt]
        exact ⟨rfl, Nat.zero_le _, hrest.2⟩
      · simp only [if_pos heq.symm]
        exact ⟨trivial, hrest.2⟩
    · simp only [hover, Bool.not_false, if_true, hrest.1]
      exact ⟨trivial, hrest.2⟩

theorem resolve_of_recorded (hapart : TablesApart w tables)
    (hbound : ∀ t ∈ tables, t.num < 2 ^ 32) (ht : t ∈ tables) (hpos : 0 < t.num * w)
    (hb : t.addr = b) :
    ∀ r, r.Sublist tables → t ∈ r → ∀ c, c ≤ n → c < 2 ^ 32 → fromNum w ⟨b, n⟩ r ≤ c →
      resolveJtablesOverlaps w ⟨b, c⟩ r = (⟨b, 0⟩, r) ∧ NoWrap w ⟨b, c⟩ r := by
  have hbt : b ∈ tableRange w t := mem_interval.mpr (by rw [JumpTable.bytes]; omega)
  -- no other table contains the first address
  have hother (t' : JumpTable) (ht' : t' ∈ tables) (hne : t' ≠ t) :
      ¬ (t'.addr ≤ b ∧ b < t'.addr + t'.bytes w) :=
    fun h => hne (hapart.eq_of_mem ht' ht (mem_interval.mpr h) hbt)
  intro r
  induction r with
  | nil => intro _ hmem; cases hmem
  | cons t' r ih =>
    intro hsub hmem c hcn hc hsum
    have ht' := hsub.subset List.mem_cons_self
    have hsub' := (List.sublist_cons_self t' r).trans hsub
    by_cases heq : t' = t
    · subst heq
      have hover : jtablesOverlap w ⟨b, c⟩ t' = true :=
        jtablesOverlap_iff.mpr (Or.inl ⟨hb.le, (mem_interval.mp hbt).2⟩)
      have hempty := resolve_of_empty (w := w) (b := b) (r := r)
        fun t'' ht'' => hbound t'' (hsub'.subset ht'')
      rw [resolveJtablesOverlaps, NoWrap]
      simp only [hover, Bool.not_true, Bool.false_eq_true, if_false, if_pos hb.symm, hempty.1]
      exact ⟨trivial, hempty.2⟩
    · have hmem' : t ∈ r := (List.mem_cons.mp hmem).resolve_left (Ne.symm heq)
      rw [resolveJtablesOverlaps, NoWrap]
      by_cases hover : jtablesOverlap w ⟨b, c⟩ t' = true
      · have hin := (jtablesOverlap_iff.mp hover).resolve_left (hother t' ht' heq)
        dsimp only at hin
        have hmul := Nat.mul_le_mul_right w hcn
        have hsum' : t'.num + fromNum w ⟨b, n⟩ r ≤ c := by
          rw [fromNum, fromTables, List.filter_cons, if_pos, List.map_cons, List.sum_cons] at hsum
          · exact hsum
          · exact decide_eq_true ⟨hin.1.le, Nat.lt_of_lt_of_le hin.2 (Nat.add_le_add_left hmul b)⟩
        have hnum : (c + 2 ^ 32 - t'.num) % 2 ^ 32 = c - t'.num := sub_mod_of_le (by omega) hc
        have hrest := ih hsub' hmem' (c - t'.num) (by omega) (by omega) (by omega)
        simp only [hover, Bool.not_true, Bool.false_eq_true, if_false,
          if_neg (Nat.ne_of_lt hin.1), if_neg (Nat.not_lt.mpr hin.1.le), hnum, hrest.1]
        exact ⟨trivial, by omega, hrest.2⟩
      · have hsum' : fromNum w ⟨b, n⟩ r ≤ c := by
          refine Nat.le_trans (List.Sublist.sum_le_sum ?_ fun _ _ => Nat.zero_le _) hsum
          exact ((List.sublist_cons_self t' r).filter _).map _
        have hrest := ih hsub' hmem' c hcn hc hsum'
        simp only [hover, Bool.not_false, if_true, hrest.1]
        exact ⟨trivial, hrest.2⟩

/-- Every recorded table is the beginning of a scanned one. -/
structure Recorded (w : Nat) (scanned tables : List JumpTable) : Prop
    extends Resolved w scanned tables where
  part : ∀ t ∈ tables, ∃ t' ∈ scanned, t'.addr = t.addr ∧ t.num ≤ t'.num
  bounded : ∀ t ∈ tables, t.num < 2 ^ 32

section Keeps

variable {scanned : List JumpTable} {jtable : JumpTable}

variable {i : Nat}

theorem Recorded.end_le (h : Recorded w scanned tables) (hend : EndTogether w scanned jtable)
    (ht : t ∈ tables) (hi : i ∈ tableRange w t) (hij : i ∈ tableRange w jtable) :
    t.addr + t.bytes w ≤ jtable.addr + jtable.bytes w := by
  obtain ⟨t', ht', haddr, hnum⟩ := h.part t ht
  have hmul := Nat.mul_le_mul_right w hnum
  have hi' : i ∈ tableRange w t' := by
    rw [mem_interval] at hi ⊢
    rw [JumpTable.bytes] at hi ⊢
    omega
  have heq := hend t' ht' fun hdisj => Finset.disjoint_left.mp hdisj hi' hij
  rw [JumpTable.bytes] at heq ⊢
  omega

theorem Recorded.upward (h : Recorded w scanned tables) (hend : EndTogether w scanned jtable)
    {j : Nat} (hi : i ∈ tablesCover w tables) (hij : i ∈ tableRange w jtable) (hle : i ≤ j)
    (hj : j ∈ tableRange w jtable) : j ∈ tablesCover w tables := by
  rw [h.cover, tablesCover, mem_cover] at hi ⊢
  obtain ⟨t, ht, hit⟩ := hi
  have heq := hend t ht fun hdisj => Finset.disjoint_left.mp hdisj hit hij
  refine ⟨t, ht, ?_⟩
  rw [mem_interval] at hit hj ⊢
  omega

theorem mem_tableRange_addr (hw : 0 < w) (hpos : 0 < t.num) : t.addr ∈ tableRange w t := by
  have hmul := Nat.mul_pos hpos hw
  rw [mem_interval, JumpTable.bytes]
  omega

theorem mem_tablesCover_cons :
    i ∈ tablesCover w (t :: tables) ↔
      (t.addr ≤ i ∧ i < t.addr + t.num * w) ∨ i ∈ tablesCover w tables := by
  rw [tablesCover, cover, Finset.mem_union, mem_interval]

theorem mem_tablesCover_append_singleton :
    i ∈ tablesCover w (tables ++ [t]) ↔
      i ∈ tablesCover w tables ∨ (t.addr ≤ i ∧ i < t.addr + t.num * w) := by
  rw [tablesCover, cover_append, Finset.mem_union, cover, cover, Finset.union_empty, mem_interval]

theorem card_insideCover (h : TablesApart w tables) :
    (tablesCover w (insideTables w jtable tables)).card = insideNum w jtable tables * w := by
  have hapart : TablesApart w (insideTables w jtable tables) := h.sublist List.filter_sublist
  rw [hapart.card_cover, insideNum, ← List.sum_map_mul_right]

theorem Recorded.inside_cover (h : Recorded w scanned tables) (hend : EndTogether w scanned jtable)
    (hw : 0 < w) :
    tablesCover w (insideTables w jtable tables) =
      Finset.Ico (jtable.addr + jtable.bytes w - insideNum w jtable tables * w)
        (jtable.addr + jtable.bytes w) := by
  have hinside {i : Nat} (hi : i ∈ tablesCover w (insideTables w jtable tables)) :
      ∃ t ∈ tables, Inside w jtable t ∧ i ∈ tableRange w t := by
    obtain ⟨t, ht, hit⟩ := mem_cover.mp hi
    exact ⟨t, (mem_insideTables.mp ht).1, (mem_insideTables.mp ht).2, hit⟩
  have hlt {t : JumpTable} (ht : t ∈ tables) (hin : Inside w jtable t) :
      t.addr + t.bytes w ≤ jtable.addr + jtable.bytes w :=
    h.end_le hend ht (mem_tableRange_addr hw hin.1) (mem_interval.mpr ⟨hin.2.1.le, hin.2.2⟩)
  rw [← card_insideCover h.apart]
  refine eq_Ico_of_upward (fun i hi => ?_) fun i j hi hle hj => ?_
  · obtain ⟨t, ht, hin, hit⟩ := hinside hi
    have hti := mem_interval.mp hit
    have hle := hlt ht hin
    omega
  · obtain ⟨t, ht, hin, hit⟩ := hinside hi
    have hti := mem_interval.mp hit
    have hb := hin.2.1
    have hle' := hlt ht hin
    obtain ⟨t', ht', hjt'⟩ := mem_cover.mp (h.upward hend (mem_cover.mpr ⟨t, ht, hit⟩)
      (mem_interval.mpr ⟨by omega, by omega⟩) hle (mem_interval.mpr ⟨by omega, hj⟩))
    have hjt := mem_interval.mp hjt'
    have hb' : jtable.addr < t'.addr := by
      by_contra hnot
      have heq := h.apart.eq_of_mem ht' ht (mem_interval.mpr ⟨by omega, by omega⟩) hit
      rw [heq] at hnot
      exact hnot hb
    have hpos : 0 < t'.num := by
      by_contra hnot
      rw [JumpTable.bytes, Nat.eq_zero_of_not_pos hnot, Nat.zero_mul] at hjt
      omega
    refine mem_cover.mpr ⟨t', mem_insideTables.mpr ⟨ht', hpos, hb', ?_⟩, hjt'⟩
    omega

/-- A recorded table with a number of the new one is inside of it or is cut by it, if none begins
where the new one does. -/
theorem inside_of_mem (hnone : NoneAt jtable.addr tables) (ht : t ∈ tables)
    (hit : i ∈ tableRange w t) (hij : i ∈ tableRange w jtable) (hcuts : ¬ Cuts w jtable t) :
    Inside w jtable t := by
  rw [mem_interval] at hit hij
  have hpos : 0 < t.num := by
    by_contra hnot
    rw [JumpTable.bytes, Nat.eq_zero_of_not_pos hnot, Nat.zero_mul] at hit
    omega
  rcases Nat.lt_trichotomy t.addr jtable.addr with hlt | heq | hgt
  · exact absurd ⟨hlt, by omega⟩ hcuts
  · exact absurd (hnone t ht heq) (Nat.ne_of_gt hpos)
  · exact ⟨hpos, hgt, by omega⟩

theorem Recorded.kept (h : Recorded w scanned tables) (hend : EndTogether w scanned jtable)
    (hw : 0 < w) :
    insideNum w jtable tables ≤ jtable.num ∧
      jtable.addr + (jtable.num - insideNum w jtable tables) * w =
        jtable.addr + jtable.bytes w - insideNum w jtable tables * w := by
  have hcover := h.inside_cover hend hw
  have hle : insideNum w jtable tables * w ≤ jtable.num * w := by
    by_contra hnot
    have hcard := congrArg Finset.card hcover
    rw [card_insideCover h.apart, Nat.card_Ico, JumpTable.bytes] at hcard
    -- a number in front of the new table would be covered by a table inside of it
    have hmem : jtable.addr + jtable.bytes w - insideNum w jtable tables * w ∈
        tablesCover w (insideTables w jtable tables) := by
      rw [hcover, Finset.mem_Ico, JumpTable.bytes]
      omega
    obtain ⟨t, ht, hit⟩ := mem_cover.mp hmem
    have hin := (mem_insideTables.mp ht).2
    have hb := hin.2.1
    rw [mem_interval, JumpTable.bytes] at hit
    omega
  refine ⟨Nat.le_of_mul_le_mul_right hle hw, ?_⟩
  rw [Nat.sub_mul, JumpTable.bytes]
  omega

theorem Recorded.cuts_end (h : Recorded w scanned tables) (hend : EndTogether w scanned jtable)
    (hw : 0 < w) (hnone : NoneAt jtable.addr tables) (hj : 0 < jtable.num) (ht : t ∈ tables)
    (hcuts : Cuts w jtable t) :
    t.addr + t.bytes w = jtable.addr + (jtable.num - insideNum w jtable tables) * w := by
  obtain ⟨hlt, hltend⟩ := hcuts
  have hcover := h.inside_cover hend hw
  have hb : jtable.addr ∈ tableRange w t := mem_interval.mpr ⟨hlt.le, hltend⟩
  have hbj := mem_tableRange_addr hw hj
  have hle := h.end_le hend ht hb hbj
  rw [(h.kept hend hw).2]
  generalize hm : jtable.addr + jtable.bytes w - insideNum w jtable tables * w = m at hcover ⊢
  -- a number is covered by a table inside or by the one that is cut
  have hcut {t' : JumpTable} (ht' : t' ∈ tables) (hcuts' : Cuts w jtable t') : t' = t :=
    h.apart.eq_of_mem ht' ht (mem_interval.mpr ⟨hcuts'.1.le, hcuts'.2⟩) hb
  refine Nat.le_antisymm ?_ ?_
  · by_contra hnot
    have hmem : t.addr + t.bytes w - 1 ∈
        tablesCover w (insideTables w jtable tables) := by
      rw [hcover, Finset.mem_Ico]
      omega
    obtain ⟨t', ht', hit⟩ := mem_cover.mp hmem
    have hin := (mem_insideTables.mp ht').2
    have heq := h.apart.eq_of_mem (mem_insideTables.mp ht').1 ht hit
      (mem_interval.mpr ⟨by omega, by omega⟩)
    rw [heq] at hin
    exact absurd hin.2.1 (by omega)
  · by_contra hnot
    have hendj : t.addr + t.bytes w ∈ tableRange w jtable := mem_interval.mpr ⟨by omega, by omega⟩
    obtain ⟨t', ht', hit⟩ := mem_cover.mp (h.upward hend (mem_cover.mpr ⟨t, ht, hb⟩) hbj
      (by omega) hendj)
    by_cases hcuts' : Cuts w jtable t'
    · rw [hcut ht' hcuts', mem_interval] at hit
      omega
    · have hmem : t.addr + t.bytes w ∈
          tablesCover w (insideTables w jtable tables) :=
        mem_cover.mpr ⟨t', mem_insideTables.mpr ⟨ht', inside_of_mem hnone ht' hit hendj hcuts'⟩,
          hit⟩
      rw [hcover, Finset.mem_Ico] at hmem
      omega

theorem mem_range_cutTable {c : Nat} (hc : Cuts w ⟨b, 0⟩ t → t.addr + t.bytes w = b + c * w) :
    i ∈ tableRange w (cutTable w b c t) ↔ i ∈ tableRange w t ∧ (Cuts w ⟨b, 0⟩ t → i < b) := by
  rw [cutTable]
  split_ifs with hcuts
  · have hlen := hc hcuts
    have hlt : t.addr < b := hcuts.1
    rw [JumpTable.bytes] at hlen
    simp only [mem_interval, JumpTable.bytes, Nat.sub_mul]
    constructor
    · intro hi
      omega
    · rintro ⟨hi, hib⟩
      have hib' := hib hcuts
      omega
  · simp [hcuts]

theorem Recorded.resolved_cut (h : Recorded w scanned tables) (hend : EndTogether w scanned jtable)
    (hw : 0 < w) (hnone : NoneAt jtable.addr tables) (hj : 0 < jtable.num) :
    Resolved w (scanned ++ [jtable])
      (⟨jtable.addr, jtable.num - insideNum w jtable tables⟩ ::
        tables.map (cutTable w jtable.addr (jtable.num - insideNum w jtable tables))) := by
  have hcutsend {t : JumpTable} (ht : t ∈ tables) := h.cuts_end hend hw hnone hj ht
  obtain ⟨hle, hkept⟩ := h.kept hend hw
  have hinside := h.inside_cover hend hw
  have hbj := mem_tableRange_addr hw hj
  generalize hc : jtable.num - insideNum w jtable tables = c at hcutsend hkept ⊢
  have hcle : c * w ≤ jtable.bytes w := Nat.mul_le_mul_right w (by omega)
  have hbytes : jtable.bytes w = jtable.num * w := rfl
  have hcut {t : JumpTable} (ht : t ∈ tables) {i : Nat} :=
    mem_range_cutTable (i := i) (hcutsend ht)
  -- the new table covers what no table inside of it does
  have hnew {i : Nat} (hi : jtable.addr ≤ i) (hlt : i < jtable.addr + c * w) {t : JumpTable}
      (ht : t ∈ tables) (hit : i ∈ tableRange w t) : Cuts w jtable t := by
    by_contra hcuts
    have hin := inside_of_mem hnone ht hit (mem_interval.mpr ⟨hi, by omega⟩) hcuts
    have hmem : i ∈ tablesCover w (insideTables w jtable tables) :=
      mem_cover.mpr ⟨t, mem_insideTables.mpr ⟨ht, hin⟩, hit⟩
    rw [hinside, Finset.mem_Ico] at hmem
    omega
  refine ⟨List.pairwise_cons.mpr ⟨fun t' ht' => ?_, ?_⟩, ?_⟩
  · obtain ⟨t, ht, rfl⟩ := List.mem_map.mp ht'
    rw [Finset.disjoint_left]
    intro i hi hit
    obtain ⟨hit, hib⟩ := (hcut ht).mp hit
    obtain ⟨hbi, hic⟩ := mem_interval.mp hi
    exact absurd (hib (hnew hbi hic ht hit)) (Nat.not_lt.mpr hbi)
  · refine List.pairwise_map.mpr (h.apart.imp_of_mem fun {t t'} ht ht' hdisj => ?_)
    rw [Finset.disjoint_left] at hdisj ⊢
    intro i hi hi'
    exact hdisj ((hcut ht).mp hi).1 ((hcut ht').mp hi').1
  · ext i
    rw [mem_tablesCover_cons, mem_tablesCover_append_singleton, ← h.cover]
    constructor
    · rintro (⟨hbi, hic⟩ | hi)
      · dsimp only at hbi hic
        exact Or.inr (by omega)
      · obtain ⟨t', ht', hit⟩ := mem_cover.mp hi
        obtain ⟨t, ht, rfl⟩ := List.mem_map.mp ht'
        exact Or.inl (mem_cover.mpr ⟨t, ht, ((hcut ht).mp hit).1⟩)
    · -- a number of a recorded table is kept, or it is taken over by the new one
      have hold {t : JumpTable} (ht : t ∈ tables) (hit : i ∈ tableRange w t) :
          (jtable.addr ≤ i ∧ i < jtable.addr + c * w) ∨
            i ∈ tablesCover w (tables.map (cutTable w jtable.addr c)) := by
        by_cases hib : Cuts w jtable t → i < jtable.addr
        · exact Or.inr (mem_cover.mpr ⟨_, List.mem_map_of_mem ht, (hcut ht).mpr ⟨hit, hib⟩⟩)
        · push Not at hib
          have htend := hcutsend ht hib.1
          have hti := mem_interval.mp hit
          exact Or.inl (by omega)
      rintro (hi | ⟨hbi, hie⟩)
      · obtain ⟨t, ht, hit⟩ := mem_cover.mp hi
        exact hold ht hit
      · by_cases hic : i < jtable.addr + c * w
        · exact Or.inl ⟨hbi, hic⟩
        · have hmem : i ∈ tablesCover w (insideTables w jtable tables) := by
            rw [hinside, Finset.mem_Ico]
            omega
          obtain ⟨t, ht, hit⟩ := mem_cover.mp hmem
          exact hold (mem_insideTables.mp ht).1 hit

theorem Recorded.fromNum_le (h : Recorded w scanned tables) (hend : EndTogether w scanned jtable)
    (hw : 0 < w) : fromNum w jtable tables ≤ jtable.num := by
  have hapart : TablesApart w (fromTables w jtable tables) := h.apart.sublist List.filter_sublist
  have hsub : tablesCover w (fromTables w jtable tables) ⊆ tableRange w jtable := by
    intro i hi
    obtain ⟨t, ht, hit⟩ := mem_cover.mp hi
    rw [fromTables, List.mem_filter, decide_eq_true_iff] at ht
    have hti := mem_interval.mp hit
    have hle := h.end_le hend ht.1 (mem_interval.mpr ⟨le_rfl, by omega⟩) (mem_interval.mpr ht.2)
    exact mem_interval.mpr ⟨by omega, by omega⟩
  have hcard := Finset.card_le_card hsub
  rw [hapart.card_cover, tableRange, interval, Nat.card_Ico, Nat.add_sub_cancel_left] at hcard
  have hsum : ((fromTables w jtable tables).map (JumpTable.bytes w)).sum =
      fromNum w jtable tables * w := by
    rw [fromNum, ← List.sum_map_mul_right]
  rw [hsum] at hcard
  exact Nat.le_of_mul_le_mul_right hcard hw

theorem Recorded.cons_empty (h : Recorded w scanned tables)
    (hcovered : tableRange w jtable ⊆ tablesCover w tables) :
    Recorded w (scanned ++ [jtable]) (⟨jtable.addr, 0⟩ :: tables) := by
  have hempty : tableRange w ⟨jtable.addr, 0⟩ = ∅ := by
    rw [tableRange, interval, JumpTable.bytes, Nat.zero_mul, Nat.add_zero, Finset.Ico_self]
  refine ⟨⟨List.pairwise_cons.mpr ⟨fun t _ => ?_, h.apart⟩, ?_⟩, ?_, ?_⟩
  · rw [← tableRange, hempty]
    exact Finset.disjoint_empty_left _
  · ext i
    rw [tablesCover, cover, ← tableRange, hempty, Finset.empty_union,
      mem_tablesCover_append_singleton, ← h.cover]
    exact ⟨Or.inl, fun hi => hi.elim id fun hi => hcovered (mem_interval.mpr hi)⟩
  · intro t ht
    rcases List.mem_cons.mp ht with rfl | ht
    · exact ⟨jtable, by simp, rfl, Nat.zero_le _⟩
    · obtain ⟨t', ht', hpart⟩ := h.part t ht
      exact ⟨t', List.mem_append_left _ ht', hpart⟩
  · intro t ht
    rcases List.mem_cons.mp ht with rfl | ht
    · exact Nat.two_pow_pos 32
    · exact h.bounded t ht

theorem cutTable_num_le (c : Nat) (t : JumpTable) :
    (cutTable w b c t).addr = t.addr ∧ (cutTable w b c t).num ≤ t.num := by
  rw [cutTable]
  split_ifs
  · exact ⟨rfl, Nat.sub_le _ _⟩
  · exact ⟨rfl, le_rfl⟩

/-- If tables that overlap end together, the next one is recorded, too. -/
theorem Recorded.step (h : Recorded w scanned tables) (hend : EndTogether w scanned jtable)
    (hw : 0 < w) (hnum : jtable.num < 2 ^ 32) (horder : InOrder w jtable tables) :
    NoWrap w jtable tables ∧ Recorded w (scanned ++ [jtable])
      ((resolveJtablesOverlaps w jtable tables).1 :: (resolveJtablesOverlaps w jtable tables).2) := by
  obtain ⟨b, n⟩ := jtable
  by_cases hn : n = 0
  · subst hn
    have hempty := resolve_of_empty (w := w) (b := b) h.bounded
    rw [hempty.1]
    refine ⟨hempty.2, h.cons_empty fun i hi => ?_⟩
    rw [tableRange, interval, JumpTable.bytes, Nat.zero_mul, Nat.add_zero, Finset.Ico_self] at hi
    cases hi
  · have hj : 0 < n := Nat.pos_of_ne_zero hn
    by_cases hrecorded : ∃ t ∈ tables, 0 < t.num ∧ t.addr = b
    · obtain ⟨t, ht, htpos, htb⟩ := hrecorded
      have hresolve := resolve_of_recorded (n := n) h.apart h.bounded ht (Nat.mul_pos htpos hw) htb
        tables (List.Sublist.refl _) ht n le_rfl hnum (h.fromNum_le hend hw)
      rw [hresolve.1]
      refine ⟨hresolve.2, h.cons_empty fun i hi => ?_⟩
      have hbt := mem_tableRange_addr hw htpos
      rw [htb] at hbt
      exact h.upward hend (mem_cover.mpr ⟨t, ht, hbt⟩) (mem_tableRange_addr hw hj)
        (mem_interval.mp hi).1 hi
    · have hnone : NoneAt b tables := by
        intro t ht htb
        exact Nat.eq_zero_of_not_pos fun hpos => hrecorded ⟨t, ht, hpos, htb⟩
      obtain ⟨hle, hkept⟩ := h.kept hend hw
      have hresolve := resolve_of_order (w := w) (n := n) tables [] (horder.resolve_left hrecorded)
        hnone h.bounded hnum hle fun t ht hcuts => by
          have hlen := h.cuts_end hend hw hnone hj ht hcuts
          have hlt : t.addr < b := hcuts.1
          rw [JumpTable.bytes] at hlen
          dsimp only at hlen
          rw [List.nil_append]
          exact Nat.le_of_mul_le_mul_right (by omega) hw
      rw [List.nil_append] at hresolve
      have hfirst : n - insideNum w ⟨b, n⟩ [] = n := Nat.sub_zero n
      rw [hfirst] at hresolve
      rw [hresolve.1]
      refine ⟨hresolve.2, h.resolved_cut hend hw hnone hj, fun t ht => ?_, fun t ht => ?_⟩
      · rcases List.mem_cons.mp ht with rfl | ht
        · exact ⟨⟨b, n⟩, by simp, rfl, Nat.sub_le _ _⟩
        · obtain ⟨t0, ht0, rfl⟩ := List.mem_map.mp ht
          obtain ⟨t', ht', haddr, hle'⟩ := h.part t0 ht0
          have hcut := cutTable_num_le (w := w) (b := b) (n - insideNum w ⟨b, n⟩ tables) t0
          exact ⟨t', List.mem_append_left _ ht', haddr.trans hcut.1.symm, hcut.2.trans hle'⟩
      · rcases List.mem_cons.mp ht with rfl | ht
        · exact Nat.lt_of_le_of_lt (Nat.sub_le _ _) hnum
        · obtain ⟨t0, ht0, rfl⟩ := List.mem_map.mp ht
          exact Nat.lt_of_le_of_lt (cutTable_num_le _ t0).2 (h.bounded t0 ht0)

theorem resolve_append (l r : List JumpTable) (jtable : JumpTable) :
    resolveJtablesOverlaps w jtable (l ++ r) =
      ((resolveJtablesOverlaps w (resolveJtablesOverlaps w jtable l).1 r).1,
        (resolveJtablesOverlaps w jtable l).2 ++
          (resolveJtablesOverlaps w (resolveJtablesOverlaps w jtable l).1 r).2) := by
  induction l generalizing jtable with
  | nil => rfl
  | cons t l ih =>
    rw [List.cons_append, resolveJtablesOverlaps, resolveJtablesOverlaps]
    split_ifs
    · simp only [ih, List.cons_append]
    · simp only [ih, List.cons_append]
    · simp only [ih, List.cons_append]
    · simp only [ih, List.cons_append]

theorem noWrap_append (l r : List JumpTable) (jtable : JumpTable) :
    NoWrap w jtable (l ++ r) ↔
      NoWrap w jtable l ∧ NoWrap w (resolveJtablesOverlaps w jtable l).1 r := by
  induction l generalizing jtable with
  | nil => exact (and_iff_right trivial).symm
  | cons t l ih =>
    rw [List.cons_append, NoWrap, NoWrap, resolveJtablesOverlaps]
    split_ifs
    · exact ih jtable
    · exact ih _
    · rw [ih jtable, and_assoc]
    · rw [ih _, and_assoc]

/-- Without a table that is cut, some of the elements inside are taken away from the new table; if
all of them are, then the tables are in order. -/
theorem resolve_of_not_cuts (r : List JumpTable) :
    ∀ c, c ≤ n → c < 2 ^ 32 → NoneAt b r → (∀ t ∈ r, ¬ Cuts w ⟨b, 0⟩ t) →
      NoWrap w ⟨b, c⟩ r →
      ∃ k, k ≤ c ∧ k ≤ insideNum w ⟨b, n⟩ r ∧
        resolveJtablesOverlaps w ⟨b, c⟩ r = (⟨b, c - k⟩, r) ∧
        (k = insideNum w ⟨b, n⟩ r → ∀ l t r', r = l ++ t :: r' → Inside w ⟨b, n⟩ t →
          t.addr + insideNum w ⟨b, n⟩ l * w < b + c * w) := by
  induction r with
  | nil =>
    intro c _ _ _ _ _
    exact ⟨0, Nat.zero_le _, le_rfl, rfl, fun _ l t r' hnil => by simp at hnil⟩
  | cons t r ih =>
    intro c hcn hc hnone hcuts hwrap
    have hnone' : NoneAt b r := fun t' ht' => hnone t' (List.mem_cons_of_mem t ht')
    have hcuts' := fun t' ht' => hcuts t' (List.mem_cons_of_mem t ht')
    rw [NoWrap] at hwrap
    rw [resolveJtablesOverlaps]
    have hmul := Nat.mul_le_mul_right w hcn
    by_cases hover : jtablesOverlap w ⟨b, c⟩ t = true
    · have hin : b < t.addr ∧ t.addr < b + c * w := by
        rcases jtablesOverlap_iff.mp hover with ⟨hle, hend⟩ | hin
        · dsimp only at hle hend
          rcases Nat.lt_or_eq_of_le hle with hlt | heq
          · exact absurd ⟨hlt, hend⟩ (hcuts t List.mem_cons_self)
          · rw [JumpTable.bytes, hnone t List.mem_cons_self heq, Nat.zero_mul] at hend
            omega
        · exact hin
      simp only [hover, Bool.not_true, Bool.false_eq_true, if_false, if_neg (Nat.ne_of_lt hin.1),
        if_neg (Nat.not_lt.mpr hin.1.le)] at hwrap ⊢
      rw [sub_mod_of_le hwrap.1 hc] at hwrap ⊢
      obtain ⟨k, hkc, hk, hres, horder⟩ := ih (c - t.num) (by omega) (by omega) hnone' hcuts'
        hwrap.2
      have hsum : t.num + insideNum w ⟨b, n⟩ r = insideNum w ⟨b, n⟩ (t :: r) := by
        by_cases hpos : 0 < t.num
        · have hinside : Inside w ⟨b, n⟩ t := ⟨hpos, hin.1, by
            rw [JumpTable.bytes]
            dsimp only
            omega⟩
          rw [insideNum_cons_of_inside hinside]
        · rw [insideNum_cons_of_not_inside fun hinside => hpos hinside.1]
          omega
      have hle := hwrap.1
      refine ⟨t.num + k, by omega, by omega, by rw [hres, Nat.sub_sub], fun hall l t' r' hsplit
        hinside => ?_⟩
      cases l with
      | nil =>
        obtain ⟨rfl, -⟩ := List.cons.inj hsplit
        rw [insideNum, insideTables, List.filter_nil, List.map_nil, List.sum_nil, Nat.zero_mul]
        exact hin.2
      | cons d l =>
        obtain ⟨rfl, hsplit'⟩ := List.cons.inj hsplit
        have hfar := horder (by omega) l t' r' hsplit' hinside
        have hlen : insideNum w ⟨b, n⟩ (t :: l) ≤ t.num + insideNum w ⟨b, n⟩ l := by
          by_cases hinside' : Inside w ⟨b, n⟩ t
          · rw [insideNum_cons_of_inside hinside']
          · rw [insideNum_cons_of_not_inside hinside']
            omega
        have hmul' := Nat.mul_le_mul_right w hlen
        have hmul'' := Nat.mul_le_mul_right w hle
        rw [Nat.add_mul] at hmul'
        rw [Nat.sub_mul] at hfar
        omega
    · simp only [hover, Bool.not_false, if_true] at hwrap ⊢
      obtain ⟨k, hkc, hk, hres, horder⟩ := ih c hcn hc hnone' hcuts' hwrap
      have hle : insideNum w ⟨b, n⟩ r ≤ insideNum w ⟨b, n⟩ (t :: r) := by
        by_cases hinside : Inside w ⟨b, n⟩ t
        · rw [insideNum_cons_of_inside hinside]
          omega
        · rw [insideNum_cons_of_not_inside hinside]
      refine ⟨k, hkc, by omega, by rw [hres], fun hall l t' r' hsplit hinside => ?_⟩
      have hnot : ¬ Inside w ⟨b, n⟩ t := by
        intro hinside'
        rw [insideNum_cons_of_inside hinside'] at hall
        have hpos := hinside'.1
        omega
      rw [insideNum_cons_of_not_inside hnot] at hall
      cases l with
      | nil =>
        obtain ⟨rfl, -⟩ := List.cons.inj hsplit
        exact absurd hinside hnot
      | cons d l =>
        obtain ⟨rfl, hsplit'⟩ := List.cons.inj hsplit
        rw [insideNum_cons_of_not_inside hnot]
        exact horder hall l t' r' hsplit' hinside

theorem le_of_covered {m k : Nat} (hapart : TablesApart w (l ++ t :: r)) (hcuts : Cuts w ⟨b, 0⟩ t)
    (hcovered : b - 1 ∈ tablesCover w (⟨b, k⟩ :: (l ++ ⟨t.addr, m⟩ :: r))) :
    b ≤ t.addr + m * w := by
  obtain ⟨hlt, hend⟩ := hcuts
  dsimp only at hlt hend
  have hbt : b - 1 ∈ tableRange w t := mem_interval.mpr ⟨by omega, by omega⟩
  have hparts := List.pairwise_append.mp hapart
  rw [mem_tablesCover_cons, tablesCover, cover_append, Finset.mem_union, ← tablesCover,
    ← tablesCover, mem_tablesCover_cons] at hcovered
  dsimp only at hcovered
  rcases hcovered with hin | hin | hin | hin
  · omega
  · obtain ⟨t1, ht1, hit⟩ := mem_cover.mp hin
    exact absurd hbt (Finset.disjoint_left.mp (hparts.2.2 t1 ht1 t List.mem_cons_self) hit)
  · omega
  · obtain ⟨t1, ht1, hit⟩ := mem_cover.mp hin
    exact absurd hit (Finset.disjoint_left.mp ((List.pairwise_cons.mp hparts.2.1).1 t1 ht1) hbt)

theorem not_cuts_of_apart (hapart : TablesApart w (l ++ t :: r)) (hcuts : Cuts w ⟨b, 0⟩ t) :
    (∀ t' ∈ l, ¬ Cuts w ⟨b, 0⟩ t') ∧ ∀ t' ∈ r, ¬ Cuts w ⟨b, 0⟩ t' := by
  have hparts := List.pairwise_append.mp hapart
  have hb {t : JumpTable} (hcuts : Cuts w ⟨b, 0⟩ t) : b ∈ tableRange w t :=
    mem_interval.mpr ⟨hcuts.1.le, hcuts.2⟩
  exact ⟨fun t' ht' hcuts' => Finset.disjoint_left.mp (hparts.2.2 t' ht' t List.mem_cons_self)
      (hb hcuts') (hb hcuts),
    fun t' ht' hcuts' => Finset.disjoint_left.mp ((List.pairwise_cons.mp hparts.2.1).1 t' ht')
      (hb hcuts) (hb hcuts')⟩

theorem sequenced_of_empty (hn : jtable.num = 0) (tables : List JumpTable) :
    Sequenced w jtable tables := by
  have hnot (t : JumpTable) : ¬ Inside w jtable t := by
    rintro ⟨-, hlt, hlt'⟩
    rw [JumpTable.bytes, hn, Nat.zero_mul] at hlt'
    exact absurd (Nat.lt_trans hlt hlt') (Nat.lt_irrefl _)
  exact fun l t r _ => ⟨fun hin => absurd hin (hnot t), fun _ t' _ => hnot t'⟩

theorem sequenced_of_before {tables l r : List JumpTable} (htables : tables = l ++ t :: r)
    (hl : ∀ t' ∈ l, ¬ Cuts w jtable t')
    (horder : ∀ l' t' r', l = l' ++ t' :: r' → Inside w jtable t' →
      t'.addr + insideNum w jtable l' * w < jtable.addr + jtable.bytes w)
    (hr : ∀ t', t' ∈ t :: r → ¬ Inside w jtable t') : Sequenced w jtable tables := by
  intro l' t' r' hsplit
  rw [htables] at hsplit
  rcases List.append_eq_append_iff.mp hsplit with ⟨m, hm, hm'⟩ | ⟨m, hm, hm'⟩
  · have hmem {t'' : JumpTable} (h : t'' ∈ t' :: r') : t'' ∈ t :: r := by
      rw [hm']
      exact List.mem_append_right m h
    exact ⟨fun hin => absurd hin (hr t' (hmem List.mem_cons_self)),
      fun _ t'' ht'' => hr t'' (hmem (List.mem_cons_of_mem t' ht''))⟩
  · cases m with
    | nil =>
      rw [List.nil_append] at hm'
      rw [← hm'] at hr
      exact ⟨fun hin => absurd hin (hr t' List.mem_cons_self),
        fun _ t'' ht'' => hr t'' (List.mem_cons_of_mem t' ht'')⟩
    | cons d m =>
      obtain ⟨rfl, -⟩ := List.cons.inj hm'
      exact ⟨horder l' t' m hm, fun hcut => absurd hcut (hl t' (by rw [hm]; simp))⟩

theorem Recorded.sequenced_of_cuts (h : Recorded w scanned (l ++ t :: r))
    (hend : EndTogether w scanned ⟨b, n⟩) (hw : 0 < w) (hnum : n < 2 ^ 32)
    (hnone : NoneAt b (l ++ t :: r)) (hn : 0 < n) (hcut : Cuts w ⟨b, n⟩ t)
    (hwrap : NoWrap w ⟨b, n⟩ (l ++ t :: r))
    (hcovered : b - 1 ∈ tablesCover w (l ++ t :: r) →
      b - 1 ∈ tablesCover w ((resolveJtablesOverlaps w ⟨b, n⟩ (l ++ t :: r)).1 ::
        (resolveJtablesOverlaps w ⟨b, n⟩ (l ++ t :: r)).2)) :
    Sequenced w ⟨b, n⟩ (l ++ t :: r) := by
  have ht : t ∈ l ++ t :: r := by simp
  obtain ⟨hle, -⟩ := h.kept hend hw
  obtain ⟨hl, hr⟩ := not_cuts_of_apart h.apart hcut
  have htend := h.cuts_end hend hw hnone hn ht hcut
  have hlt : t.addr < b := hcut.1
  have hbt : b < t.addr + t.num * w := hcut.2
  dsimp only at htend hle
  rw [noWrap_append] at hwrap
  obtain ⟨k, hkn, hk, hres, horder⟩ := resolve_of_not_cuts (n := n) l n le_rfl hnum
    (fun t' ht' => hnone t' (List.mem_append_left _ ht')) hl hwrap.1
  have hover : jtablesOverlap w ⟨b, n - k⟩ t = true :=
    jtablesOverlap_iff.mpr (Or.inl ⟨hlt.le, hbt⟩)
  rw [resolve_append, hres, resolveJtablesOverlaps] at hcovered
  rw [hres, NoWrap] at hwrap
  simp only [hover, Bool.not_true, Bool.false_eq_true, if_false, if_neg (Nat.ne_of_gt hlt),
    if_pos hlt] at hcovered hwrap
  rw [sub_mod_of_le hwrap.2.1 (h.bounded t ht)] at hcovered
  -- the tables behind the one that is cut stay as they are
  obtain ⟨k', -, -, hres', -⟩ := resolve_of_not_cuts (n := n) r (n - k) (Nat.sub_le n k)
    (Nat.lt_of_le_of_lt (Nat.sub_le n k) hnum) (fun t' ht' => hnone t' (by simp [ht'])) hr
    hwrap.2.2
  rw [hres'] at hcovered
  have hbefore := le_of_covered h.apart hcut
    (hcovered (mem_cover.mpr ⟨t, ht, mem_interval.mpr ⟨by omega, by omega⟩⟩))
  -- all elements inside were taken away before
  have hmul := Nat.mul_le_mul_right w hwrap.2.1
  have hmul' : (n - k) * w ≤ (n - insideNum w ⟨b, n⟩ (l ++ t :: r)) * w := by
    rw [JumpTable.bytes] at htend
    rw [Nat.sub_mul t.num] at hbefore
    omega
  have hsub := Nat.le_of_mul_le_mul_right hmul' hw
  have hsum := insideNum_append (w := w) ⟨b, n⟩ l (t :: r)
  refine sequenced_of_before rfl hl (horder (by omega)) fun t' ht' hin => ?_
  obtain ⟨l1, r1, h1⟩ := List.append_of_mem ht'
  have hrest := insideNum_append (w := w) ⟨b, n⟩ l1 (t' :: r1)
  rw [← h1, insideNum_cons_of_inside hin] at hrest
  have hpos := hin.1
  omega

theorem Recorded.sequenced_of_not_cuts (h : Recorded w scanned tables)
    (hend : EndTogether w scanned ⟨b, n⟩) (hw : 0 < w) (hnum : n < 2 ^ 32)
    (hnone : NoneAt b tables) (hnot : ∀ t ∈ tables, ¬ Cuts w ⟨b, n⟩ t)
    (hwrap : NoWrap w ⟨b, n⟩ tables)
    (hapart : TablesApart w ((resolveJtablesOverlaps w ⟨b, n⟩ tables).1 ::
      (resolveJtablesOverlaps w ⟨b, n⟩ tables).2)) :
    Sequenced w ⟨b, n⟩ tables := by
  obtain ⟨hle, hkept⟩ := h.kept hend hw
  have hinside := h.inside_cover hend hw
  obtain ⟨k, hkn, hk, hres, horder⟩ := resolve_of_not_cuts (n := n) tables n le_rfl hnum hnone hnot
    hwrap
  rw [hres] at hapart
  dsimp only [JumpTable.bytes] at hle hkept hinside
  have hall : k = insideNum w ⟨b, n⟩ tables := by
    by_contra hne
    -- the first number that is covered inside would be in the new table, too
    have hmul : (n - insideNum w ⟨b, n⟩ tables) * w < (n - k) * w :=
      Nat.mul_lt_mul_of_pos_right (by omega) hw
    have hmul' : (n - k) * w ≤ n * w := Nat.mul_le_mul_right w (Nat.sub_le n k)
    have hmem : b + (n - insideNum w ⟨b, n⟩ tables) * w ∈
        tablesCover w (insideTables w ⟨b, n⟩ tables) := by
      rw [hinside, hkept, Finset.mem_Ico]
      omega
    obtain ⟨t, ht, hit⟩ := mem_cover.mp hmem
    have hdisj := (List.pairwise_cons.mp hapart).1 t (mem_insideTables.mp ht).1
    exact Finset.disjoint_left.mp hdisj
      (mem_interval.mpr ⟨Nat.le_add_right _ _, Nat.add_lt_add_left hmul b⟩) hit
  exact fun l t r hsplit => ⟨horder hall l t r hsplit, fun hcut =>
    absurd hcut (hnot t (by rw [hsplit]; simp))⟩

theorem Recorded.inOrder_of_resolved (h : Recorded w scanned tables)
    (hend : EndTogether w scanned jtable) (hw : 0 < w) (hnum : jtable.num < 2 ^ 32)
    (hwrap : NoWrap w jtable tables)
    (hresolved : Resolved w (scanned ++ [jtable])
      ((resolveJtablesOverlaps w jtable tables).1 :: (resolveJtablesOverlaps w jtable tables).2)) :
    InOrder w jtable tables := by
  obtain ⟨b, n⟩ := jtable
  by_cases hrecorded : ∃ t ∈ tables, 0 < t.num ∧ t.addr = b
  · exact Or.inl hrecorded
  refine Or.inr ?_
  have hnone : NoneAt b tables := by
    intro t ht htb
    exact Nat.eq_zero_of_not_pos fun hpos => hrecorded ⟨t, ht, hpos, htb⟩
  by_cases hn : n = 0
  · exact sequenced_of_empty hn tables
  by_cases hcuts : ∃ t ∈ tables, Cuts w ⟨b, n⟩ t
  · obtain ⟨t, ht, hcut⟩ := hcuts
    obtain ⟨l, r, rfl⟩ := List.append_of_mem ht
    refine h.sequenced_of_cuts hend hw hnum hnone (Nat.pos_of_ne_zero hn) hcut hwrap fun hi => ?_
    have hmem : b - 1 ∈ tablesCover w (scanned ++ [⟨b, n⟩]) :=
      mem_tablesCover_append_singleton.mpr (Or.inl (h.cover ▸ hi))
    rwa [← hresolved.cover] at hmem
  · exact h.sequenced_of_not_cuts hend hw hnum hnone (fun t ht hcut => hcuts ⟨t, ht, hcut⟩) hwrap
      hresolved.apart

end Keeps

end Step

section Run

variable (target : Target) (addr size : Nat)

def scannedTable (insn : Insn) : JumpTable :=
  ⟨jtableAddr target insn, jtableNum target addr (addr + size) insn⟩

def scannedTables (insns : List Insn) : List JumpTable :=
  insns.map (scannedTable target addr size)

def recordedTables (insns : List Insn) : List JumpTable :=
  (insns.foldl (fun s insn => handleJmpNearIndirect target addr insn s) ⟨size, [], []⟩).jumpTables

/-- After each jump the tables are resolved, and no number gets below zero on the way. -/
def AlwaysResolved (insns : List Insn) : Prop :=
  ∀ l r, insns = l ++ r →
    Resolved target.arch.sizeofLong (scannedTables target addr size l)
      (recordedTables target addr size l) ∧
    ∀ insn r', r = insn :: r' → NoWrap target.arch.sizeofLong (scannedTable target addr size insn)
      (recordedTables target addr size l)

variable {target addr size} {insn : Insn} {insns : List Insn}

theorem sizeofLong_pos (arch : Arch) : 0 < arch.sizeofLong := by
  cases arch with
  | x86_32 => exact Nat.succ_pos _
  | x86_64 => exact Nat.succ_pos _

theorem scannedTable_num_lt (insn : Insn) : (scannedTable target addr size insn).num < 2 ^ 32 :=
  Nat.mod_lt _ (Nat.two_pow_pos 32)

theorem scannedTables_append_singleton :
    scannedTables target addr size (insns ++ [insn]) =
      scannedTables target addr size insns ++ [scannedTable target addr size insn] :=
  List.map_append

theorem handleJmpNearIndirect_size (s : Bounds) :
    (handleJmpNearIndirect target addr insn s).size = s.size := by
  rw [handleJmpNearIndirect]
  cases jtableEnd target insn with
  | none => rfl
  | some e => rfl

theorem foldl_size (insns : List Insn) (s : Bounds) :
    (insns.foldl (fun s insn => handleJmpNearIndirect target addr insn s) s).size = s.size := by
  induction insns generalizing s with
  | nil => rfl
  | cons insn insns ih => rw [List.foldl_cons, ih, handleJmpNearIndirect_size]

theorem recordedTables_append_singleton :
    recordedTables target addr size (insns ++ [insn]) =
      match jtableEnd target insn with
      | none => recordedTables target addr size insns
      | some _ =>
        let r := resolveJtablesOverlaps target.arch.sizeofLong
          (scannedTable target addr size insn) (recordedTables target addr size insns)
        r.1 :: r.2 := by
  rw [recordedTables, List.foldl_append, List.foldl_cons, List.foldl_nil, handleJmpNearIndirect]
  cases jtableEnd target insn with
  | none => rfl
  | some e =>
    simp only [foldl_size]
    rfl

theorem scannedTable_num_of_none (h : jtableEnd target insn = none) :
    (scannedTable target addr size insn).num = 0 := by
  rw [scannedTable, jtableNum, jtableCount, h]
  rfl

theorem Recorded.scan_empty {w : Nat} {scanned tables : List JumpTable} {t : JumpTable}
    (h : Recorded w scanned tables) (ht : t.num = 0) : Recorded w (scanned ++ [t]) tables := by
  refine ⟨⟨h.apart, ?_⟩, fun t' ht' => ?_, h.bounded⟩
  · ext i
    rw [mem_tablesCover_append_singleton, ← h.cover, ht, Nat.zero_mul]
    constructor
    · exact Or.inl
    · rintro (hi | hi)
      · exact hi
      · omega
  · obtain ⟨t1, ht1, hpart⟩ := h.part t' ht'
    exact ⟨t1, List.mem_append_left _ ht1, hpart⟩

theorem recorded_append_singleton
    (h : Recorded target.arch.sizeofLong (scannedTables target addr size insns)
      (recordedTables target addr size insns))
    (hend : EndTogether target.arch.sizeofLong (scannedTables target addr size insns)
      (scannedTable target addr size insn))
    (horder : InOrder target.arch.sizeofLong (scannedTable target addr size insn)
      (recordedTables target addr size insns)) :
    NoWrap target.arch.sizeofLong (scannedTable target addr size insn)
        (recordedTables target addr size insns) ∧
      Recorded target.arch.sizeofLong (scannedTables target addr size (insns ++ [insn]))
        (recordedTables target addr size (insns ++ [insn])) := by
  have hstep := h.step hend (sizeofLong_pos _) (scannedTable_num_lt insn) horder
  refine ⟨hstep.1, ?_⟩
  rw [recordedTables_append_singleton, scannedTables_append_singleton]
  cases hjtable : jtableEnd target insn with
  | none => exact h.scan_empty (scannedTable_num_of_none hjtable)
  | some e => exact hstep.2

/-- The condition for the jumps of a run. -/
def AlwaysInOrder (target : Target) (addr size : Nat) (insns : List Insn) : Prop :=
  ∀ l insn r, insns = l ++ insn :: r → InOrder target.arch.sizeofLong
    (scannedTable target addr size insn) (recordedTables target addr size l)

/-- Scanned ranges that overlap end at the same address. -/
def AlwaysEndTogether (target : Target) (addr size : Nat) (insns : List Insn) : Prop :=
  ∀ l insn r, insns = l ++ insn :: r → EndTogether target.arch.sizeofLong
    (scannedTables target addr size l) (scannedTable target addr size insn)

variable {l r : List Insn}

theorem AlwaysEndTogether.of_append (h : AlwaysEndTogether target addr size (l ++ r)) :
    AlwaysEndTogether target addr size l :=
  fun l' insn r' hl => h l' insn (r' ++ r) (by rw [hl]; simp)

theorem AlwaysInOrder.of_append (h : AlwaysInOrder target addr size (l ++ r)) :
    AlwaysInOrder target addr size l :=
  fun l' insn r' hl => h l' insn (r' ++ r) (by rw [hl]; simp)

theorem recorded_of_inOrder (insns : List Insn) (hend : AlwaysEndTogether target addr size insns)
    (horder : AlwaysInOrder target addr size insns) :
    Recorded target.arch.sizeofLong (scannedTables target addr size insns)
      (recordedTables target addr size insns) := by
  induction insns using List.reverseRecOn with
  | nil =>
    exact ⟨⟨List.Pairwise.nil, rfl⟩, fun _ ht => absurd ht List.not_mem_nil,
      fun _ ht => absurd ht List.not_mem_nil⟩
  | append_singleton insns insn ih =>
    exact (recorded_append_singleton (ih hend.of_append horder.of_append) (hend insns insn [] rfl)
      (horder insns insn [] rfl)).2

theorem inOrder_of_alwaysResolved (hend : AlwaysEndTogether target addr size (l ++ insn :: r))
    (horder : AlwaysInOrder target addr size l)
    (h : AlwaysResolved target addr size (l ++ insn :: r)) :
    InOrder target.arch.sizeofLong (scannedTable target addr size insn)
      (recordedTables target addr size l) := by
  have hrecorded := recorded_of_inOrder l hend.of_append horder
  cases hjtable : jtableEnd target insn with
  | none => exact Or.inr (sequenced_of_empty (scannedTable_num_of_none hjtable) _)
  | some e =>
    have hafter := (h (l ++ [insn]) r (by simp)).1
    rw [recordedTables_append_singleton, scannedTables_append_singleton, hjtable] at hafter
    exact hrecorded.inOrder_of_resolved (hend l insn r rfl) (sizeofLong_pos _)
      (scannedTable_num_lt insn) ((h l (insn :: r) rfl).2 insn r rfl) hafter

/-- Tables that overlap end together; then they are always resolved if and only if each of them is
in order. -/
theorem alwaysResolved_iff (target : Target) (addr size : Nat) (insns : List Insn)
    (hend : AlwaysEndTogether target addr size insns) :
    AlwaysResolved target addr size insns ↔ AlwaysInOrder target addr size insns := by
  constructor
  · intro h
    have hall : ∀ l r, insns = l ++ r → AlwaysInOrder target addr size l := by
      intro l
      induction l using List.reverseRecOn with
      | nil => exact fun _ _ l insn r hnil => by simp at hnil
      | append_singleton l last ih =>
        intro r hsplit l' insn r' hl
        rw [List.append_assoc, List.singleton_append] at hsplit
        have horder := ih (last :: r) hsplit
        rcases List.eq_nil_or_concat r' with rfl | ⟨r'', d, rfl⟩
        · obtain ⟨rfl, hlast⟩ := List.append_inj' hl rfl
          obtain ⟨rfl, -⟩ := List.cons.inj hlast
          rw [hsplit] at hend h
          exact inOrder_of_alwaysResolved hend horder h
        · rw [List.concat_eq_append, ← List.cons_append, ← List.append_assoc] at hl
          exact horder l' insn r'' (List.append_inj' hl rfl).1
    exact hall insns [] (List.append_nil insns).symm
  · rintro horder l r rfl
    have hrecorded := recorded_of_inOrder l hend.of_append horder.of_append
    refine ⟨hrecorded.toResolved, ?_⟩
    rintro insn r rfl
    exact (recorded_append_singleton hrecorded (hend l insn r rfl) (horder l insn r rfl)).1

end Run

section Aligned

variable {target : Target} {addr size : Nat}

def IsElem (target : Target) (funcStart funcEnd endAddr pos : Nat) : Prop :=
  pos ≤ endAddr ∧ ¬ (target.long pos < funcStart ∨ target.long pos ≥ funcEnd)

variable {funcStart funcEnd endAddr pos n : Nat}

theorem isElem_of_lt_countElems {i : Nat}
    (h : i < countElems target funcStart funcEnd endAddr n pos) :
    IsElem target funcStart funcEnd endAddr (pos + i * target.arch.sizeofLong) := by
  induction n generalizing pos i with
  | zero => cases h
  | succ n ih =>
    rw [countElems] at h
    split_ifs at h with hpos hout
    · cases h
    · cases i with
      | zero => rw [Nat.zero_mul, Nat.add_zero]; exact ⟨hpos, hout⟩
      | succ i =>
        have hnext := ih (Nat.lt_of_succ_lt_succ h)
        rwa [Nat.add_assoc, Nat.add_comm target.arch.sizeofLong, ← Nat.succ_mul] at hnext
    · cases h

theorem not_isElem_countElems (target : Target) (funcStart funcEnd pos : Nat)
    (hn : endAddr < pos + n * target.arch.sizeofLong) :
    ¬ IsElem target funcStart funcEnd endAddr
      (pos + countElems target funcStart funcEnd endAddr n pos * target.arch.sizeofLong) := by
  induction n generalizing pos with
  | zero =>
    rw [countElems]
    exact fun helem => absurd helem.1 (Nat.not_le.mpr hn)
  | succ n ih =>
    rw [countElems]
    split_ifs with hpos hout
    · rw [Nat.zero_mul, Nat.add_zero]
      exact fun helem => helem.2 hout
    · have hnext := ih (pos + target.arch.sizeofLong) (by rw [Nat.succ_mul] at hn; omega)
      rwa [Nat.add_assoc, Nat.add_comm target.arch.sizeofLong, ← Nat.succ_mul] at hnext
    · rw [Nat.zero_mul, Nat.add_zero]
      exact fun helem => hpos helem.1

theorem countElems_of_elem {d : Nat} (hd : d ≤ countElems target funcStart funcEnd endAddr n pos)
    (hn : endAddr < pos + n * target.arch.sizeofLong) :
    d + countElems target funcStart funcEnd endAddr n (pos + d * target.arch.sizeofLong) =
      countElems target funcStart funcEnd endAddr n pos := by
  have hadd (i : Nat) : pos + d * target.arch.sizeofLong + i * target.arch.sizeofLong =
      pos + (d + i) * target.arch.sizeofLong := by
    rw [Nat.add_mul, Nat.add_assoc]
  have hfirst := not_isElem_countElems target funcStart funcEnd pos hn
  have hn' : endAddr < pos + d * target.arch.sizeofLong + n * target.arch.sizeofLong := by omega
  have hsecond := not_isElem_countElems target funcStart funcEnd _ hn'
  rw [hadd] at hsecond
  generalize hk : countElems target funcStart funcEnd endAddr n
    (pos + d * target.arch.sizeofLong) = k at hsecond ⊢
  rcases Nat.lt_trichotomy (d + k) (countElems target funcStart funcEnd endAddr n pos) with
    hlt | heq | hgt
  · exact absurd (isElem_of_lt_countElems hlt) hsecond
  · exact heq
  · have hlt : countElems target funcStart funcEnd endAddr n pos - d < countElems target funcStart
        funcEnd endAddr n (pos + d * target.arch.sizeofLong) := by
      rw [hk]
      omega
    have helem := isElem_of_lt_countElems hlt
    rw [hadd, Nat.add_sub_cancel' hd] at helem
    exact absurd helem hfirst

/-- The areas of a module have no address in common, and their sizes are of the type
`unsigned int`. -/
structure Module.Placed (mod : Module) : Prop where
  coreSize : mod.coreSize < 2 ^ 32
  initSize : mod.initSize < 2 ^ 32
  apart : mod.moduleCore + mod.coreSize ≤ mod.moduleInit ∨
    mod.moduleInit + mod.initSize ≤ mod.moduleCore

variable {insn insn' : Insn} {e : Nat}

theorem jtableEnd_area (hplaced : target.mod.Placed) (h : jtableEnd target insn = some e) :
    ∃ start size, size < 2 ^ 32 ∧ start ≤ jtableAddr target insn ∧ e < start + size ∧
      ∀ insn', start ≤ jtableAddr target insn' → jtableAddr target insn' ≤ e →
        jtableEnd target insn' = some e := by
  have hw := sizeofLong_pos target.arch
  rw [jtableEnd] at h
  split_ifs at h with hcore hinit
  · obtain rfl := Option.some.inj h
    refine ⟨target.mod.moduleCore, target.mod.coreSize, hplaced.coreSize, hcore.1, by omega,
      fun insn' hle hlt => ?_⟩
    rw [jtableEnd, if_pos ⟨hle, by omega⟩]
  · obtain rfl := Option.some.inj h
    refine ⟨target.mod.moduleInit, target.mod.initSize, hplaced.initSize, hinit.1, by omega,
      fun insn' hle hlt => ?_⟩
    have hnot : ¬ (jtableAddr target insn' ≥ target.mod.moduleCore ∧
        jtableAddr target insn' < target.mod.moduleCore + target.mod.coreSize) := by
      have hapart := hplaced.apart
      omega
    rw [jtableEnd, if_neg hnot, if_pos ⟨hle, by omega⟩]

theorem jtableNum_eq (hplaced : target.mod.Placed) (h : jtableEnd target insn = some e)
    (funcStart funcEnd : Nat) :
    jtableNum target funcStart funcEnd insn =
      countElems target funcStart funcEnd e (e + 1) (jtableAddr target insn) := by
  obtain ⟨start, size, hsize, hstart, hlt, -⟩ := jtableEnd_area hplaced h
  rw [jtableNum, jtableCount, h]
  refine Nat.mod_eq_of_lt ?_
  dsimp only
  by_contra hnot
  have hlast : size < countElems target funcStart funcEnd e (e + 1) (jtableAddr target insn) := by
    omega
  have hle := (isElem_of_lt_countElems hlast).1
  have hmul := Nat.le_mul_of_pos_right size (sizeofLong_pos target.arch)
  omega

theorem end_eq_of_aligned (hplaced : target.mod.Placed)
    (hmod : jtableAddr target insn ≡ jtableAddr target insn' [MOD target.arch.sizeofLong])
    (hle : jtableAddr target insn ≤ jtableAddr target insn')
    (hlt : jtableAddr target insn' < jtableAddr target insn +
      jtableNum target addr (addr + size) insn * target.arch.sizeofLong) :
    jtableAddr target insn + jtableNum target addr (addr + size) insn * target.arch.sizeofLong =
      jtableAddr target insn' +
        jtableNum target addr (addr + size) insn' * target.arch.sizeofLong := by
  have hw := sizeofLong_pos target.arch
  obtain ⟨d, hd⟩ := (Nat.modEq_iff_dvd' hle).mp hmod
  have haddr : jtableAddr target insn' = jtableAddr target insn + d * target.arch.sizeofLong := by
    rw [Nat.mul_comm]
    omega
  cases hend : jtableEnd target insn with
  | none =>
    rw [jtableNum, jtableCount, hend, Nat.zero_mod, Nat.zero_mul] at hlt
    omega
  | some e =>
    have hnum := jtableNum_eq hplaced hend addr (addr + size)
    have hdlt : d < jtableNum target addr (addr + size) insn := by
      rw [haddr] at hlt
      exact Nat.lt_of_mul_lt_mul_right (Nat.lt_of_add_lt_add_left hlt)
    rw [hnum] at hdlt
    obtain ⟨start, areaSize, -, hstart, -, hsame⟩ := jtableEnd_area hplaced hend
    have hend' := hsame insn' (hstart.trans hle) (haddr ▸ (isElem_of_lt_countElems hdlt).1)
    have hfuel : e < jtableAddr target insn + (e + 1) * target.arch.sizeofLong := by
      have hmul := Nat.le_mul_of_pos_right (e + 1) hw
      omega
    have hcount := countElems_of_elem hdlt.le hfuel
    rw [hnum, jtableNum_eq hplaced hend', haddr, ← hcount, Nat.add_mul, Nat.add_assoc]

theorem alwaysEndTogether_of_aligned (target : Target) (addr size : Nat) (insns : List Insn)
    (hplaced : target.mod.Placed)
    (hmod : ∀ insn ∈ insns, ∀ insn' ∈ insns,
      jtableAddr target insn ≡ jtableAddr target insn' [MOD target.arch.sizeofLong]) :
    AlwaysEndTogether target addr size insns := by
  rintro l insn r rfl t ht hover
  obtain ⟨insn', hinsn', rfl⟩ := List.mem_map.mp ht
  have hmod' := hmod insn' (by simp [hinsn']) insn (by simp)
  obtain ⟨i, hi, hi'⟩ := Finset.not_disjoint_iff.mp hover
  obtain ⟨hle, hlt⟩ := mem_interval.mp hi
  obtain ⟨hle', hlt'⟩ := mem_interval.mp hi'
  rcases Nat.le_total (jtableAddr target insn') (jtableAddr target insn) with horder | horder
  · exact end_eq_of_aligned hplaced hmod' horder (Nat.lt_of_le_of_lt hle' hlt)
  · exact (end_eq_of_aligned hplaced hmod'.symm horder (Nat.lt_of_le_of_lt hle hlt')).symm

end Aligned

section Example

/-- A jump `jmp near [<jump_table> + reg * <scale>]`. -/
def tableJump (displacement : Int) : Insn :=
  ⟨0xffffffffa0000110, 7, 0xff, 0x00, 0x24, 0x00, 0, displacement⟩

/-- A function at `0xffffffffa0000100`, and four words from `0xffffffffa0001000` on that point to
its beginning. -/
def fourWords : Target where
  arch := .x86_64
  byte := fun _ => 0
  long := fun a =>
    if 0xffffffffa0001000 ≤ a ∧ a < 0xffffffffa0001020 then 0xffffffffa0000100 else 0
  decode := fun _ => tableJump 0
  mod := ⟨0, 0, 0xffffffffa0000000, 0x2000⟩

/-- The tables begin at the third, the first and the second word. -/
def threeJumps : List Insn :=
  [tableJump (-0x5fffeff0), tableJump (-0x5ffff000), tableJump (-0x5fffeff8)]

theorem fourWords_placed : fourWords.mod.Placed :=
  ⟨by decide, by decide, Or.inr (by decide)⟩

theorem recordedTables_threeJumps :
    recordedTables fourWords 0xffffffffa0000100 0x40 threeJumps =
      [⟨0xffffffffa0001008, 1⟩, ⟨0xffffffffa0001000, 4294967295⟩, ⟨0xffffffffa0001010, 2⟩] := by
  decide +kernel

/-- Three jumps through tables in one area. -/
theorem alwaysResolved_iff_threeJumps :
    AlwaysResolved fourWords 0xffffffffa0000100 0x40 threeJumps ↔
      AlwaysInOrder fourWords 0xffffffffa0000100 0x40 threeJumps :=
  alwaysResolved_iff _ _ _ _ (alwaysEndTogether_of_aligned _ _ _ _ fourWords_placed (by decide))

/-- The number of elements of the first word's table gets below zero. -/
theorem not_alwaysResolved_threeJumps :
    ¬ ∀ (target : Target) (addr size : Nat) (insns : List Insn), target.mod.Placed →
      AlwaysResolved target addr size insns := by
  intro h
  have hresolved := (h fourWords 0xffffffffa0000100 0x40 threeJumps fourWords_placed threeJumps []
    rfl).1
  have hapart := hresolved.apart
  rw [recordedTables_threeJumps] at hapart
  have hdisj := (List.pairwise_cons.mp hapart).1 ⟨0xffffffffa0001000, 4294967295⟩ (by simp)
  have hsecond : 0xffffffffa0001008 ∈ tableRange 8 ⟨0xffffffffa0001008, 1⟩ :=
    mem_interval.mpr (by decide)
  have hfirst : 0xffffffffa0001008 ∈ tableRange 8 ⟨0xffffffffa0001000, 4294967295⟩ :=
    mem_interval.mpr (by decide)
  exact Finset.disjoint_left.mp hdisj hsecond hfirst

end Example

end Blocks
end MemRw
end KedrAux
