import KedrAux.Lib.OrderedMap

/-!
# The k-way traversal of ordered maps

`for_each_vector` (`do_trace_operation.cpp`) walks a vector of maps, some of
them possibly `NULL`, in one ordered pass.  For every key it calls a function
with the key and, per map, the entry under that key.

The model keeps what the source keeps: per map an iterator (the entries still
ahead), the `valid` flag and the `existence` flag, and beside them the current
`key`.  Advancing the iterators and finding the next minimum are one pass, which
reads the stale flags of the maps not yet visited and clears those of the maps
already visited.  The result is the list of calls made; `none` stands for the
failed assertion `n > 0`.
-/

namespace KedrAux
namespace Coverage

universe u v w

variable {K : Type u} [LinearOrder K]
variable {V : Type v}

/-- `iters[i]`, `valid[i]` and `existence[i]` of one map. -/
structure Slot (K : Type u) (V : Type v) where
  iter : List (K × V)
  valid : Bool
  existence : Bool

namespace Slot

def setup : Option (OrderedMap K V) → Slot K V
  | none => ⟨[], false, false⟩
  | some m => ⟨m.entries, !m.entries.isEmpty, false⟩

def clear (s : Slot K V) : Slot K V :=
  { s with existence := false }

def mark (s : Slot K V) : Slot K V :=
  { s with existence := true }

/-- Advance the iterator when the map took part in the last call. -/
def advance (s : Slot K V) : Slot K V :=
  if s.existence then
    ⟨s.iter.tail, !s.iter.tail.isEmpty, false⟩
  else s

/-- What the called function may use of the map: the entry, if it exists. -/
def view (s : Slot K V) : Option V :=
  if s.existence then s.iter.head?.map Prod.snd else none

/-- The key under the iterator. -/
def head? (s : Slot K V) : Option K :=
  if s.valid then s.iter.head?.map Prod.fst else none

end Slot

/-- One step of the first search for the minimal key; `key` is already set. -/
def initVisit
    (acc : List (Slot K V) × K) (s : Slot K V) :
    List (Slot K V) × K :=
  match s.head? with
  | none => (acc.1 ++ [s], acc.2)
  | some k =>
    if acc.2 < k then (acc.1 ++ [s], acc.2)
    else if k < acc.2 then (acc.1.map Slot.clear ++ [s.mark], k)
    else (acc.1 ++ [s.mark], acc.2)

/--
One step of the main pass: advance, then compare with the minimal key found so
far.  The key is `none` as long as `key_valid` is false.
-/
def mainVisit
    (acc : List (Slot K V) × Option K) (s : Slot K V) :
    List (Slot K V) × Option K :=
  match s.advance.head? with
  | none => (acc.1 ++ [s.advance], acc.2)
  | some k =>
    match acc.2 with
    | none => (acc.1 ++ [s.advance.mark], some k)
    | some key =>
      if key < k then (acc.1 ++ [s.advance], some key)
      else if k < key then (acc.1.map Slot.clear ++ [s.advance.mark], some k)
      else (acc.1 ++ [s.advance.mark], some key)

/-- The main loop: one call, then one pass; it ends when no key is left. -/
def mainLoop :
    Nat → List (Slot K V) → K → Option (List (K × List (Option V)))
  | 0, _, _ => none
  | fuel + 1, slots, key =>
    match slots.foldl mainVisit ([], none) with
    | (_, none) => some [(key, slots.map Slot.view)]
    | (slots', some key') =>
      (mainLoop fuel slots' key').map ((key, slots.map Slot.view) :: ·)

/-- Set the `existence` flag of the first valid map; also return its key. -/
def markFirstValid : List (Slot K V) → Option (List (Slot K V) × K)
  | [] => none
  | s :: l =>
    match s.head? with
    | some k => some (s.mark :: l, k)
    | none => (markFirstValid l).map fun r => (s :: r.1, r.2)

def forEachVector
    (maps : List (Option (OrderedMap K V))) :
    Option (List (K × List (Option V))) :=
  if maps.length > 0 then
    match markFirstValid (maps.map Slot.setup) with
    | none => some []
    | some (slots, first) =>
      let found := slots.foldl initVisit ([], first)
      let entriesLeft := (maps.map fun m => (m.elim 0 fun m => m.entries.length)).sum
      mainLoop entriesLeft found.1 found.2
  else none

/-- A slot between two passes: its flags agree with its iterator. -/
structure Slot.Ready (s : Slot K V) : Prop where
  valid_iff : s.valid = !s.iter.isEmpty
  sorted : s.iter.Pairwise (fun a b => a.1 < b.1)

variable {s : Slot K V} {k key : K} {l before after slots : List (Slot K V)}

theorem Slot.Ready.head?_eq (hs : s.Ready) : s.head? = s.iter.head?.map Prod.fst := by
  unfold Slot.head?
  rw [hs.valid_iff]
  cases s.iter <;> simp

def Slot.flagged (key : K) (s : Slot K V) : Slot K V :=
  { s with existence := decide (s.head? = some key) }

theorem map_clear_flagged (hmin : ∀ s ∈ l, ∀ j, s.head? = some j → key ≤ j) (hk : k < key) :
    (l.map (Slot.flagged key)).map Slot.clear = l.map (Slot.flagged k) := by
  rw [List.map_map]
  apply List.map_congr_left
  intro s hs
  have hne : s.head? ≠ some k := fun h => absurd (hmin s hs k h) (not_le.mpr hk)
  simp [Slot.flagged, Slot.clear, hne]

/-- A scanned prefix: flags set for the minimal key of the slots scanned. -/
structure Scanned
    (before : List (Slot K V)) (after : List (Slot K V)) (key : K) : Prop where
  flags : after = before.map (Slot.flagged key)
  minimal : ∀ s ∈ before, ∀ j, s.head? = some j → key ≤ j

variable {s' : Slot K V} {calls : List (K × List (Option V))} {l' : List (Slot K V)}

theorem Scanned.push (h : Scanned before after key) (hs : s' = Slot.flagged key s)
    (hmin : ∀ j, s.head? = some j → key ≤ j) :
    Scanned (before ++ [s]) (after ++ [s']) key where
  flags := by simp [h.flags, hs]
  minimal := by
    intro s0 hs0
    rcases List.mem_append.mp hs0 with hs0 | hs0
    · exact h.minimal s0 hs0
    · rw [List.mem_singleton.mp hs0]
      exact hmin

theorem Scanned.lower (h : Scanned before after key) (hk : k < key) (hhead : s.head? = some k)
    (hs : s' = s.mark) :
    Scanned (before ++ [s]) (after.map Slot.clear ++ [s']) k where
  flags := by
    rw [h.flags, map_clear_flagged h.minimal hk]
    simp [hs, Slot.flagged, Slot.mark, hhead]
  minimal := by
    intro s0 hs0 j hj
    rcases List.mem_append.mp hs0 with hs0 | hs0
    · exact le_trans hk.le (h.minimal s0 hs0 j hj)
    · rw [List.mem_singleton.mp hs0, hhead] at hj
      exact le_of_eq (Option.some.inj hj)

theorem flagged_of_existence_false (hs : s.existence = false) (h : s.head? ≠ some key) :
    s = Slot.flagged key s := by
  cases s
  simp_all [Slot.flagged]

theorem mark_eq_flagged (h : s.head? = some key) : s.mark = Slot.flagged key s := by
  simp [Slot.flagged, Slot.mark, h]

theorem initVisit_scanned (s : Slot K V) (h : Scanned before after key) (hs : s.existence = false) :
    Scanned (before ++ [s]) (initVisit (after, key) s).1 (initVisit (after, key) s).2 ∧
      (initVisit (after, key) s).2 ≤ key ∧
      ((initVisit (after, key) s).2 = key ∨
        s.head? = some (initVisit (after, key) s).2) := by
  unfold initVisit
  cases hk : s.head? with
  | none =>
    refine ⟨h.push (flagged_of_existence_false hs (by simp [hk])) (by simp [hk]),
      le_rfl, Or.inl rfl⟩
  | some k =>
    dsimp only
    split_ifs with hlt hgt
    · refine ⟨h.push (flagged_of_existence_false hs ?_) ?_, le_rfl, Or.inl rfl⟩
      · rw [hk]
        exact fun he => hlt.ne' (Option.some.inj he)
      · intro j hj
        rw [hk] at hj
        exact Option.some.inj hj ▸ hlt.le
    · exact ⟨h.lower hgt hk rfl, hgt.le, Or.inr rfl⟩
    · have he : k = key := le_antisymm (not_lt.mp hlt) (not_lt.mp hgt)
      subst he
      refine ⟨h.push (mark_eq_flagged hk) ?_, le_rfl, Or.inl rfl⟩
      intro j hj
      rw [hk] at hj
      exact le_of_eq (Option.some.inj hj)

theorem foldl_initVisit_scanned :
    ∀ {before after : List (Slot K V)} {key : K},
      Scanned before after key →
      (∀ s ∈ l, s.existence = false) →
      (∃ s ∈ before, s.head? = some key) →
      ∃ key', l.foldl initVisit (after, key) =
          ((before ++ l).map (Slot.flagged key'), key') ∧
        (∀ s ∈ before ++ l, ∀ j, s.head? = some j → key' ≤ j) ∧
        ∃ s ∈ before ++ l, s.head? = some key' := by
  induction l with
  | nil =>
    intro before after key h _ hex
    exact ⟨key, by simp [h.flags], by simpa using h.minimal, by simpa using hex⟩
  | cons s l ih =>
    intro before after key h hl hex
    obtain ⟨hscan, hle, hkey⟩ := initVisit_scanned s h (hl s (by simp))
    have hex' : ∃ s0 ∈ before ++ [s],
        s0.head? = some (initVisit (after, key) s).2 := by
      rcases hkey with hkey | hkey
      · obtain ⟨s0, hs0, hh⟩ := hex
        exact ⟨s0, by simp [hs0], by rw [hkey, hh]⟩
      · exact ⟨s, by simp, hkey⟩
    have := ih hscan (fun s0 hs0 => hl s0 (by simp [hs0])) hex'
    simpa using this

theorem mainVisit_some (after : List (Slot K V)) (key : K) (s : Slot K V) :
    mainVisit (after, some key) s =
      ((initVisit (after, key) s.advance).1, some (initVisit (after, key) s.advance).2) := by
  unfold mainVisit initVisit
  cases s.advance.head? with
  | none => rfl
  | some k =>
    dsimp only
    split_ifs <;> rfl

theorem foldl_mainVisit_some (l : List (Slot K V)) :
    ∀ (after : List (Slot K V)) (key : K),
      l.foldl mainVisit (after, some key) =
        (((l.map Slot.advance).foldl initVisit (after, key)).1,
          some ((l.map Slot.advance).foldl initVisit (after, key)).2) := by
  induction l with
  | nil =>
    intro after key
    rfl
  | cons s l ih =>
    intro after key
    rw [List.foldl_cons, mainVisit_some, ih]
    rfl

omit [LinearOrder K] in
theorem advance_existence (s : Slot K V) : s.advance.existence = false := by
  unfold Slot.advance
  split_ifs with h
  · rfl
  · simpa using h

/--
The main pass over slots: either nothing is left, or all flags are those of the
new minimal key.
-/
theorem foldl_mainVisit_spec (l : List (Slot K V)) :
    ∀ before : List (Slot K V),
      (∀ s ∈ before, s.existence = false ∧ s.head? = none) →
      (l.foldl mainVisit (before, none) = (before ++ l.map Slot.advance, none) ∧
        ∀ s ∈ l.map Slot.advance, s.head? = none) ∨
      ∃ key', l.foldl mainVisit (before, none) =
          ((before ++ l.map Slot.advance).map (Slot.flagged key'), some key') ∧
        (∀ s ∈ before ++ l.map Slot.advance, ∀ j, s.head? = some j → key' ≤ j) ∧
        ∃ s ∈ before ++ l.map Slot.advance, s.head? = some key' := by
  induction l with
  | nil =>
    intro before _
    left
    simp
  | cons s l ih =>
    intro before hbefore
    cases hk : s.advance.head? with
    | none =>
      have hvisit : mainVisit (before, none) s = (before ++ [s.advance], none) := by
        simp [mainVisit, hk]
      have hbefore' : ∀ s0 ∈ before ++ [s.advance],
          s0.existence = false ∧ s0.head? = none := by
        intro s0 hs0
        rcases List.mem_append.mp hs0 with hs0 | hs0
        · exact hbefore s0 hs0
        · rw [List.mem_singleton.mp hs0]
          exact ⟨advance_existence s, hk⟩
      rw [List.foldl_cons, hvisit]
      rcases ih (before ++ [s.advance]) hbefore' with ⟨heq, hnone⟩ | hsome
      · left
        refine ⟨by simpa using heq, ?_⟩
        intro s0 hs0
        rcases List.mem_cons.mp hs0 with rfl | hs0
        · exact hk
        · exact hnone s0 hs0
      · right
        simpa using hsome
    | some k =>
      right
      have hvisit : mainVisit (before, none) s =
          (before ++ [s.advance.mark], some k) := by
        simp [mainVisit, hk]
      rw [List.foldl_cons, hvisit, foldl_mainVisit_some]
      have hscan : Scanned (before ++ [s.advance]) (before ++ [s.advance.mark]) k := by
        refine Scanned.push ⟨?_, ?_⟩ (mark_eq_flagged hk) ?_
        · symm
          rw [List.map_congr_left (g := id), List.map_id]
          intro s0 hs0
          obtain ⟨he, hh⟩ := hbefore s0 hs0
          exact (flagged_of_existence_false he (by simp [hh])).symm
        · intro s0 hs0 j hj
          simp [(hbefore s0 hs0).2] at hj
        · intro j hj
          rw [hk] at hj
          exact le_of_eq (Option.some.inj hj)
      obtain ⟨key', heq, hmin, hex⟩ :=
        foldl_initVisit_scanned (l := l.map Slot.advance) hscan
          (by
            intro s0 hs0
            obtain ⟨s1, _, rfl⟩ := List.mem_map.mp hs0
            exact advance_existence s1)
          ⟨s.advance, by simp, hk⟩
      refine ⟨key', ?_, ?_, ?_⟩
      · rw [heq]
        simp
      · simpa using hmin
      · simpa using hex

/-- The number of entries still ahead of the iterators. -/
def entriesAhead (slots : List (Slot K V)) : Nat :=
  (slots.map fun s => s.iter.length).sum

/-- The state in which the loop calls the function. -/
structure AtKey (slots : List (Slot K V)) (key : K) : Prop where
  ready : ∀ s ∈ slots, s.Ready
  flags : ∀ s ∈ slots, s.existence = decide (s.head? = some key)
  minimal : ∀ s ∈ slots, ∀ j, s.head? = some j → key ≤ j
  reached : ∃ s ∈ slots, s.head? = some key

theorem Slot.Ready.advance (hs : s.Ready) : s.advance.Ready := by
  unfold Slot.advance
  split_ifs
  · exact ⟨rfl, hs.sorted.tail⟩
  · exact hs

theorem findIn_eq_none_of_lt :
    ∀ {l : List (K × V)},
      (∀ e ∈ l, k < e.1) →
      OrderedMap.findIn k l = none
  | [], _ => rfl
  | e :: l, h => by
      have hne : ¬k = e.1 := (h e (by simp)).ne
      simp only [OrderedMap.findIn, hne, if_false]
      exact findIn_eq_none_of_lt fun e' he' => h e' (by simp [he'])

theorem Slot.Ready.lt_of_head_ne (hs : s.Ready) (hmin : ∀ j, s.head? = some j → key ≤ j)
    (hne : s.head? ≠ some key) :
    ∀ e ∈ s.iter, key < e.1 := by
  rw [hs.head?_eq] at hmin hne
  have hsorted := hs.sorted
  cases hl : s.iter with
  | nil => simp
  | cons d l =>
    rw [hl] at hmin hne hsorted
    have hd : key < d.1 :=
      lt_of_le_of_ne (hmin d.1 rfl) fun h => hne (by simp [h])
    intro e he
    rcases List.mem_cons.mp he with rfl | he
    · exact hd
    · exact hd.trans ((List.pairwise_cons.mp hsorted).1 e he)

theorem AtKey.lt_of_mem_advance (h : AtKey slots key) (hs : s ∈ slots) :
    ∀ e ∈ s.advance.iter, key < e.1 := by
  have hready := h.ready s hs
  unfold Slot.advance
  by_cases hk : s.head? = some key
  · rw [if_pos (by rw [h.flags s hs]; exact decide_eq_true hk)]
    intro e he
    rw [hready.head?_eq] at hk
    have hsorted := hready.sorted
    cases hl : s.iter with
    | nil => simp [hl] at hk
    | cons d l =>
      rw [hl] at hk hsorted he
      have hd : d.1 = key := by simpa using hk
      exact hd ▸ (List.pairwise_cons.mp hsorted).1 e he
  · rw [if_neg (by rw [h.flags s hs]; simpa using hk)]
    exact hready.lt_of_head_ne (h.minimal s hs) hk

theorem AtKey.view_eq (h : AtKey slots key) (hs : s ∈ slots) :
    s.view = OrderedMap.findIn key s.iter := by
  have hready := h.ready s hs
  unfold Slot.view
  by_cases hk : s.head? = some key
  · rw [if_pos (by rw [h.flags s hs]; exact decide_eq_true hk)]
    rw [hready.head?_eq] at hk
    cases hl : s.iter with
    | nil => simp [hl] at hk
    | cons d l =>
      rw [hl] at hk
      have hd : d.1 = key := by simpa using hk
      simp [OrderedMap.findIn, hd]
  · rw [if_neg (by rw [h.flags s hs]; simpa using hk)]
    exact (findIn_eq_none_of_lt (hready.lt_of_head_ne (h.minimal s hs) hk)).symm

theorem AtKey.findIn_advance (h : AtKey slots key) (hs : s ∈ slots) (hk : k ≠ key) :
    OrderedMap.findIn k s.advance.iter = OrderedMap.findIn k s.iter := by
  have hready := h.ready s hs
  unfold Slot.advance
  split_ifs with he
  · rw [h.flags s hs, decide_eq_true_eq, hready.head?_eq] at he
    cases hl : s.iter with
    | nil => simp [hl] at he
    | cons d l =>
      rw [hl] at he
      have hd : ¬k = d.1 := fun hkd => hk (by simpa [← hkd] using he)
      simp [OrderedMap.findIn, hd]
  · rfl

omit [LinearOrder K] in
theorem length_advance_le (s : Slot K V) : s.advance.iter.length ≤ s.iter.length := by
  unfold Slot.advance
  split_ifs <;> simp

theorem AtKey.entriesAhead_advance_lt (h : AtKey slots key) :
    entriesAhead (slots.map Slot.advance) < entriesAhead slots := by
  obtain ⟨s, hs, hk⟩ := h.reached
  unfold entriesAhead
  rw [List.map_map]
  apply List.sum_lt_sum
  · intro s _
    exact length_advance_le s
  · refine ⟨s, hs, ?_⟩
    have he : s.existence = true := by
      rw [h.flags s hs]
      exact decide_eq_true hk
    rw [(h.ready s hs).head?_eq] at hk
    cases hl : s.iter with
    | nil => simp [hl] at hk
    | cons d l => simp [Slot.advance, he, hl]

theorem AtKey.next {key' : K} (h : AtKey slots key)
    (hmin : ∀ s ∈ slots.map Slot.advance, ∀ j, s.head? = some j → key' ≤ j)
    (hex : ∃ s ∈ slots.map Slot.advance, s.head? = some key') :
    AtKey ((slots.map Slot.advance).map (Slot.flagged key')) key' where
  ready := by
    intro s hs
    obtain ⟨s1, hs1, rfl⟩ := List.mem_map.mp hs
    obtain ⟨s0, hs0, rfl⟩ := List.mem_map.mp hs1
    exact ⟨(h.ready s0 hs0).advance.valid_iff, (h.ready s0 hs0).advance.sorted⟩
  flags := by
    intro s hs
    obtain ⟨s1, _, rfl⟩ := List.mem_map.mp hs
    rfl
  minimal := by
    intro s hs j hj
    obtain ⟨s1, hs1, rfl⟩ := List.mem_map.mp hs
    exact hmin s1 hs1 j hj
  reached := by
    obtain ⟨s, hs, hk⟩ := hex
    exact ⟨Slot.flagged key' s, List.mem_map_of_mem hs, hk⟩

/-- The calls made from a state: increasing keys, all lookups, every key once. -/
structure CallsOf
    (slots : List (Slot K V)) (calls : List (K × List (Option V))) : Prop where
  sorted : calls.Pairwise (fun a b => a.1 < b.1)
  mem_iff : ∀ k vs, (k, vs) ∈ calls ↔
    (∃ s ∈ slots, (OrderedMap.findIn k s.iter).isSome) ∧
      vs = slots.map fun s => OrderedMap.findIn k s.iter

theorem AtKey.callsOf_cons (h : AtKey slots key) (hcalls : CallsOf (slots.map Slot.advance) calls) :
    CallsOf slots ((key, slots.map Slot.view) :: calls) := by
  have hrest : ∀ k, (∃ s ∈ slots.map Slot.advance,
      (OrderedMap.findIn k s.iter).isSome) → key < k := by
    rintro k ⟨s1, hs1, hk⟩
    obtain ⟨s, hs, rfl⟩ := List.mem_map.mp hs1
    by_contra hle
    rw [findIn_eq_none_of_lt] at hk
    · simp at hk
    · intro e he
      exact lt_of_le_of_lt (not_lt.mp hle) (h.lt_of_mem_advance hs e he)
  constructor
  · refine List.pairwise_cons.mpr ⟨?_, hcalls.sorted⟩
    rintro ⟨k, vs⟩ hmem
    exact hrest k ((hcalls.mem_iff k vs).mp hmem).1
  · intro k vs
    rw [List.mem_cons]
    by_cases hk : k = key
    · subst hk
      have hnot : (k, vs) ∉ calls := fun hmem =>
        lt_irrefl k (hrest k ((hcalls.mem_iff k vs).mp hmem).1)
      have hview : slots.map Slot.view = slots.map fun s => OrderedMap.findIn k s.iter :=
        List.map_congr_left fun s hs => h.view_eq hs
      have hex : ∃ s ∈ slots, (OrderedMap.findIn k s.iter).isSome := by
        obtain ⟨s, hs, hk⟩ := h.reached
        refine ⟨s, hs, ?_⟩
        rw [(h.ready s hs).head?_eq] at hk
        cases hl : s.iter with
        | nil => simp [hl] at hk
        | cons d l =>
          have hd : d.1 = k := by simpa [hl] using hk
          simp [OrderedMap.findIn, hd]
      simp [hnot, hview, hex]
    · have hlookup : ∀ s ∈ slots,
          OrderedMap.findIn k s.advance.iter = OrderedMap.findIn k s.iter :=
        fun s hs => h.findIn_advance hs hk
      have hmap : ((slots.map Slot.advance).map fun s => OrderedMap.findIn k s.iter) =
          slots.map fun s => OrderedMap.findIn k s.iter := by
        rw [List.map_map]
        exact List.map_congr_left hlookup
      rw [hcalls.mem_iff, hmap]
      have hne : (k, vs) ≠ (key, slots.map Slot.view) := fun he =>
        hk (Prod.mk.inj he).1
      simp only [hne, false_or, and_congr_left_iff]
      intro _
      constructor
      · rintro ⟨s1, hs1, hsome⟩
        obtain ⟨s, hs, rfl⟩ := List.mem_map.mp hs1
        exact ⟨s, hs, hlookup s hs ▸ hsome⟩
      · rintro ⟨s, hs, hsome⟩
        exact ⟨s.advance, List.mem_map_of_mem hs, (hlookup s hs).symm ▸ hsome⟩

theorem callsOf_nil (h : ∀ s ∈ slots, s.iter = []) :
    CallsOf slots [] where
  sorted := List.Pairwise.nil
  mem_iff := by
    intro k vs
    constructor
    · intro hmem
      simp at hmem
    · rintro ⟨⟨s, hs, hsome⟩, -⟩
      simp [h s hs, OrderedMap.findIn] at hsome

theorem CallsOf.of_flagged (h : CallsOf (slots.map (Slot.flagged key)) calls) :
    CallsOf slots calls where
  sorted := h.sorted
  mem_iff := by
    intro k vs
    have := h.mem_iff k vs
    simpa [Slot.flagged, Function.comp_def] using this

theorem Slot.Ready.iter_eq_nil (hs : s.Ready) (h : s.head? = none) : s.iter = [] := by
  rw [hs.head?_eq] at h
  cases hl : s.iter with
  | nil => rfl
  | cons d l => simp [hl] at h

/-- **The main loop** ends, and its calls are those of the state it starts in. -/
theorem mainLoop_spec :
    ∀ (fuel : Nat) (slots : List (Slot K V)) (key : K),
      AtKey slots key →
      entriesAhead slots ≤ fuel →
      ∃ calls, mainLoop fuel slots key = some calls ∧ CallsOf slots calls
  | 0, slots, key, h, hfuel => by
      have := h.entriesAhead_advance_lt
      omega
  | fuel + 1, slots, key, h, hfuel => by
      have hlt := h.entriesAhead_advance_lt
      rcases foldl_mainVisit_spec slots [] (by simp) with
        ⟨hfold, hnone⟩ | ⟨key', hfold, hmin, hex⟩
      · refine ⟨[(key, slots.map Slot.view)], by simp [mainLoop, hfold], ?_⟩
        apply h.callsOf_cons
        apply callsOf_nil
        intro s hs
        have hhead := hnone s hs
        obtain ⟨s0, hs0, rfl⟩ := List.mem_map.mp hs
        exact (h.ready s0 hs0).advance.iter_eq_nil hhead
      · simp only [List.nil_append] at hfold hmin hex
        have hahead : entriesAhead ((slots.map Slot.advance).map (Slot.flagged key')) ≤
            fuel := by
          have : entriesAhead ((slots.map Slot.advance).map (Slot.flagged key')) =
              entriesAhead (slots.map Slot.advance) := by
            simp [entriesAhead, Slot.flagged, Function.comp_def]
          omega
        obtain ⟨calls, hloop, hcalls⟩ :=
          mainLoop_spec fuel _ key' (h.next hmin hex) hahead
        refine ⟨(key, slots.map Slot.view) :: calls, ?_, ?_⟩
        · simp only [mainLoop, hfold, hloop, Option.map_some]
        · exact h.callsOf_cons hcalls.of_flagged

def lookups (maps : List (Option (OrderedMap K V))) (k : K) : List (Option V) :=
  maps.map fun m => m.bind fun m => m.find k

theorem setup_ready (m : Option (OrderedMap K V)) : (Slot.setup m).Ready := by
  cases m with
  | none => exact ⟨rfl, List.Pairwise.nil⟩
  | some m => exact ⟨rfl, m.sorted⟩

theorem setup_existence (m : Option (OrderedMap K V)) : (Slot.setup m).existence = false := by
  cases m <;> rfl

theorem findIn_setup (m : Option (OrderedMap K V)) (k : K) :
    OrderedMap.findIn k (Slot.setup m).iter = m.bind fun m => m.find k := by
  cases m <;> rfl

omit [LinearOrder K] in
theorem markFirstValid_eq_none (h : markFirstValid l = none) : ∀ s ∈ l, s.head? = none := by
  induction l with
  | nil => simp
  | cons s l ih =>
    cases hk : s.head? with
    | some k => simp [markFirstValid, hk] at h
    | none =>
      simp only [markFirstValid, hk, Option.map_eq_none_iff] at h
      intro s0 hs0
      rcases List.mem_cons.mp hs0 with rfl | hs0
      · exact hk
      · exact ih h s0 hs0

omit [LinearOrder K] in
theorem markFirstValid_eq_some (h : markFirstValid l = some (l', k)) :
    ∃ pre s post, l = pre ++ s :: post ∧ l' = pre ++ s.mark :: post ∧
      s.head? = some k ∧ ∀ s0 ∈ pre, s0.head? = none := by
  induction l generalizing l' with
  | nil => simp [markFirstValid] at h
  | cons s l ih =>
    cases hk : s.head? with
    | some j =>
      simp only [markFirstValid, hk, Option.some.injEq, Prod.mk.injEq] at h
      obtain ⟨rfl, rfl⟩ := h
      exact ⟨[], s, l, rfl, rfl, hk, by simp⟩
    | none =>
      simp only [markFirstValid, hk, Option.map_eq_some_iff, Prod.mk.injEq,
        Prod.exists] at h
      obtain ⟨l1, _, hl, rfl, rfl⟩ := h
      obtain ⟨pre, s1, post, rfl, rfl, hs1, hpre⟩ := ih hl
      refine ⟨s :: pre, s1, post, rfl, rfl, hs1, ?_⟩
      intro s0 hs0
      rcases List.mem_cons.mp hs0 with rfl | hs0
      · exact hk
      · exact hpre s0 hs0

theorem foldl_initVisit_of_head_none (key : K) :
    ∀ after : List (Slot K V),
      (∀ s ∈ l, s.head? = none) →
      l.foldl initVisit (after, key) = (after ++ l, key) := by
  induction l with
  | nil => simp
  | cons s l ih =>
    intro after hl
    have hs : initVisit (after, key) s = (after ++ [s], key) := by
      simp [initVisit, hl s (by simp)]
    rw [List.foldl_cons, hs, ih _ fun s0 hs0 => hl s0 (by simp [hs0])]
    simp

theorem flagged_eq_of_head_none (key : K) (hl : ∀ s ∈ l, s.existence = false ∧ s.head? = none) :
    l.map (Slot.flagged key) = l := by
  conv_rhs => rw [← List.map_id l]
  apply List.map_congr_left
  intro s hs
  obtain ⟨he, hh⟩ := hl s hs
  exact (flagged_of_existence_false he (by simp [hh])).symm

theorem atKey_of_markFirstValid (hready : ∀ s ∈ l, s.Ready)
    (hexist : ∀ s ∈ l, s.existence = false) (h : markFirstValid l = some (l', k)) :
    ∃ key, l'.foldl initVisit ([], k) = (l.map (Slot.flagged key), key) ∧
      AtKey (l.map (Slot.flagged key)) key := by
  obtain ⟨pre, s, post, rfl, rfl, hs, hpre⟩ := markFirstValid_eq_some h
  have hpre' : ∀ s0 ∈ pre, s0.existence = false ∧ s0.head? = none :=
    fun s0 hs0 => ⟨hexist s0 (by simp [hs0]), hpre s0 hs0⟩
  have hmark : initVisit (pre, k) s.mark = (pre ++ [s.mark], k) := by
    have hhead : s.mark.head? = some k := hs
    simp only [initVisit, hhead, lt_irrefl, if_false]
    rfl
  have hscan : Scanned (pre ++ [s]) (pre ++ [s.mark]) k := by
    refine Scanned.push ⟨(flagged_eq_of_head_none k hpre').symm, ?_⟩
      (mark_eq_flagged hs) ?_
    · intro s0 hs0 j hj
      simp [hpre s0 hs0] at hj
    · intro j hj
      rw [hs] at hj
      exact le_of_eq (Option.some.inj hj)
  obtain ⟨key, hfold, hmin, hex⟩ :=
    foldl_initVisit_scanned (l := post) hscan
      (fun s0 hs0 => hexist s0 (by simp [hs0])) ⟨s, by simp, hs⟩
  have hl : pre ++ [s] ++ post = pre ++ s :: post := by simp
  rw [hl] at hfold hmin hex
  refine ⟨key, ?_, ?_⟩
  · rw [List.foldl_append, foldl_initVisit_of_head_none k [] hpre, List.nil_append,
      List.foldl_cons, hmark, hfold]
  · constructor
    · intro s0 hs0
      obtain ⟨s1, hs1, rfl⟩ := List.mem_map.mp hs0
      exact ⟨(hready s1 hs1).valid_iff, (hready s1 hs1).sorted⟩
    · intro s0 hs0
      obtain ⟨s1, _, rfl⟩ := List.mem_map.mp hs0
      rfl
    · intro s0 hs0 j hj
      obtain ⟨s1, hs1, rfl⟩ := List.mem_map.mp hs0
      exact hmin s1 hs1 j hj
    · obtain ⟨s0, hs0, hk⟩ := hex
      exact ⟨Slot.flagged key s0, List.mem_map_of_mem hs0, hk⟩

theorem forEachVector_callsOf (maps : List (Option (OrderedMap K V))) (hn : maps ≠ []) :
    ∃ calls, forEachVector maps = some calls ∧ CallsOf (maps.map Slot.setup) calls := by
  have hlen : maps.length > 0 := List.length_pos_iff.mpr hn
  have hready : ∀ s ∈ maps.map Slot.setup, s.Ready := by
    intro s hs
    obtain ⟨m, _, rfl⟩ := List.mem_map.mp hs
    exact setup_ready m
  have hexist : ∀ s ∈ maps.map Slot.setup, s.existence = false := by
    intro s hs
    obtain ⟨m, _, rfl⟩ := List.mem_map.mp hs
    exact setup_existence m
  unfold forEachVector
  rw [if_pos hlen]
  cases hfirst : markFirstValid (maps.map Slot.setup) with
  | none =>
    refine ⟨[], rfl, callsOf_nil ?_⟩
    intro s hs
    exact (hready s hs).iter_eq_nil (markFirstValid_eq_none hfirst s hs)
  | some r =>
    obtain ⟨slots, first⟩ := r
    obtain ⟨key, hfold, hat⟩ := atKey_of_markFirstValid hready hexist hfirst
    have hahead : entriesAhead ((maps.map Slot.setup).map (Slot.flagged key)) =
        (maps.map fun m => (m.elim 0 fun m => m.entries.length)).sum := by
      unfold entriesAhead
      rw [List.map_map, List.map_map]
      congr 1
      apply List.map_congr_left
      intro m _
      cases m <;> rfl
    obtain ⟨calls, hloop, hcalls⟩ := mainLoop_spec _ _ key hat hahead.le
    refine ⟨calls, ?_, hcalls.of_flagged⟩
    simp only [hfold]
    exact hloop

/--
**The traversal.**  For a non-empty vector of maps the calls are the entries of
one ordered map: it has the keys that occur in some map, and every key comes
with all its lookups.
-/
theorem forEachVector_spec (maps : List (Option (OrderedMap K V))) (hn : maps ≠ []) :
    ∃ m : OrderedMap K (List (Option V)),
      forEachVector maps = some m.entries ∧
      ∀ k, m.find k =
        if (lookups maps k).any Option.isSome then some (lookups maps k) else none := by
  obtain ⟨calls, heq, hcalls⟩ := forEachVector_callsOf maps hn
  refine ⟨⟨calls, hcalls.sorted⟩, heq, ?_⟩
  intro k
  have hlookups : ((maps.map Slot.setup).map fun s => OrderedMap.findIn k s.iter) =
      lookups maps k := by
    rw [List.map_map]
    exact List.map_congr_left fun m _ => findIn_setup m k
  have hany : (∃ s ∈ maps.map Slot.setup, (OrderedMap.findIn k s.iter).isSome) ↔
      (lookups maps k).any Option.isSome := by
    rw [← hlookups]
    simp only [List.any_map, List.any_eq_true, Function.comp_apply, List.mem_map,
      exists_exists_and_eq_and]
  have hmem := fun vs => hcalls.mem_iff k vs
  simp only [hlookups, hany] at hmem
  split_ifs with h
  · rw [OrderedMap.find_eq_some_iff]
    exact (hmem _).mpr ⟨h, rfl⟩
  · rw [OrderedMap.find_eq_none_iff]
    exact fun vs hvs => h ((hmem vs).mp hvs).1

end Coverage
end KedrAux
