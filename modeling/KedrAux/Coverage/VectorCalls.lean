import KedrAux.Coverage.ForEachVector

/-!
# The calls of the k-way traversal

`forEachVector` keeps of every call the entries that the function may use.  Here
the calls are taken as the source makes them: with the key, the iterators and the
`existence` flags of all maps.  `forEachVector_eq` connects the two, and
`forEachVectorCalls_spec` says where the iterators point at the time of a call.
-/

namespace KedrAux
namespace Coverage

universe u v

variable {K : Type u} [LinearOrder K]
variable {V : Type v}

/-- The main loop with the arguments `key`, `iters` and `existence` of the calls. -/
def mainCalls :
    Nat → List (Slot K V) → K → Option (List (K × List (Slot K V)))
  | 0, _, _ => none
  | fuel + 1, slots, key =>
    match slots.foldl mainVisit ([], none) with
    | (_, none) => some [(key, slots)]
    | (slots', some key') => (mainCalls fuel slots' key').map ((key, slots) :: ·)

def forEachVectorCalls
    (maps : List (Option (OrderedMap K V))) :
    Option (List (K × List (Slot K V))) :=
  if maps.length > 0 then
    match markFirstValid (maps.map Slot.setup) with
    | none => some []
    | some (slots, first) =>
      let found := slots.foldl initVisit ([], first)
      let entriesLeft := (maps.map fun m => (m.elim 0 fun m => m.entries.length)).sum
      mainCalls entriesLeft found.1 found.2
  else none

/-- The call without the iterators of the maps that lack the key. -/
def viewCall (call : K × List (Slot K V)) : K × List (Option V) :=
  (call.1, call.2.map Slot.view)

theorem mainLoop_eq (fuel : Nat) (slots : List (Slot K V)) (key : K) :
    mainLoop fuel slots key = (mainCalls fuel slots key).map (List.map viewCall) := by
  induction fuel generalizing slots key with
  | zero => rfl
  | succ fuel ih =>
    rw [mainLoop, mainCalls]
    rcases slots.foldl mainVisit ([], none) with ⟨slots', _ | key'⟩
    · rfl
    · simp only [ih, Option.map_map]
      rfl

theorem forEachVector_eq (maps : List (Option (OrderedMap K V))) :
    forEachVector maps = (forEachVectorCalls maps).map (List.map viewCall) := by
  unfold forEachVector forEachVectorCalls
  split_ifs with hn
  · cases markFirstValid (maps.map Slot.setup) with
    | none => rfl
    | some found => exact mainLoop_eq _ _ _
  · rfl

def WalksOver (m : Option (OrderedMap K V)) (s : Slot K V) : Prop :=
  ∃ passed, m.elim [] OrderedMap.entries = passed ++ s.iter

theorem walksOver_setup (m : Option (OrderedMap K V)) : WalksOver m (Slot.setup m) := by
  cases m <;> exact ⟨[], rfl⟩

variable {m : Option (OrderedMap K V)} {s : Slot K V} {maps : List (Option (OrderedMap K V))}
variable {slots : List (Slot K V)} {key : K}

theorem WalksOver.flagged (h : WalksOver m s) (key : K) : WalksOver m (s.flagged key) :=
  h

theorem WalksOver.advance (h : WalksOver m s) : WalksOver m s.advance := by
  unfold Slot.advance
  split_ifs
  · obtain ⟨passed, hpassed⟩ := h
    cases hiter : s.iter with
    | nil => exact ⟨passed, by rw [hpassed, hiter]; rfl⟩
    | cons e iter => exact ⟨passed ++ [e], by rw [hpassed, hiter]; simp⟩
  · exact h

/-- What the main loop needs of its state, and what the called function finds. -/
structure CallState
    (maps : List (Option (OrderedMap K V))) (call : K × List (Slot K V)) : Prop where
  atKey : AtKey call.2 call.1
  walks : List.Forall₂ WalksOver maps call.2

theorem CallState.next {key' : K} (h : CallState maps (key, slots))
    (hmin : ∀ s ∈ slots.map Slot.advance, ∀ j, s.head? = some j → key' ≤ j)
    (hex : ∃ s ∈ slots.map Slot.advance, s.head? = some key') :
    CallState maps (key', (slots.map Slot.advance).map (Slot.flagged key')) where
  atKey := h.atKey.next hmin hex
  walks := by
    rw [List.map_map, List.forall₂_map_right_iff]
    exact h.walks.imp fun _ _ hw => hw.advance.flagged key'

theorem mainCalls_spec (fuel : Nat) (h : CallState maps (key, slots))
    {calls : List (K × List (Slot K V))} (hcalls : mainCalls fuel slots key = some calls) :
    ∀ call ∈ calls, CallState maps call := by
  induction fuel generalizing slots key calls with
  | zero => nomatch hcalls
  | succ fuel ih =>
    rw [mainCalls] at hcalls
    rcases foldl_mainVisit_spec slots [] (by simp) with
      ⟨hfold, -⟩ | ⟨key', hfold, hmin, hex⟩
    · rw [hfold] at hcalls
      obtain rfl := Option.some.inj hcalls
      simpa using h
    · simp only [List.nil_append] at hfold hmin hex
      rw [hfold] at hcalls
      obtain ⟨rest, hrest, rfl⟩ := Option.map_eq_some_iff.mp hcalls
      intro call hcall
      rcases List.mem_cons.mp hcall with rfl | hcall
      · exact h
      · exact ih (h.next hmin hex) hrest call hcall

/-- Arguments of a call for one map: the flag, and the iterator if the flag is set. -/
structure CalledWith (key : K) (m : Option (OrderedMap K V)) (s : Slot K V) : Prop where
  existence_iff : s.existence = true ↔ ∃ m', m = some m' ∧ key ∈ m'.keys
  points : s.existence = true →
    ∃ m' passed v rest, m = some m' ∧ m'.entries = passed ++ s.iter ∧ s.iter = (key, v) :: rest

theorem Slot.Ready.iter_of_flag (hs : s.Ready) (hflag : s.existence = decide (s.head? = some key))
    (h : s.existence = true) :
    ∃ v rest, s.iter = (key, v) :: rest := by
  rw [hflag, decide_eq_true_eq, hs.head?_eq] at h
  cases hiter : s.iter with
  | nil => simp [hiter] at h
  | cons e rest =>
    obtain rfl : e.1 = key := by simpa [hiter] using h
    exact ⟨e.2, rest, rfl⟩

theorem calledWith_of_walksOver (hwalks : WalksOver m s) (hs : s.Ready)
    (hflag : s.existence = decide (s.head? = some key))
    (hview : s.view = m.bind fun m => m.find key) :
    CalledWith key m s where
  existence_iff := by
    constructor
    · intro h
      obtain ⟨v, rest, hiter⟩ := hs.iter_of_flag hflag h
      rw [Slot.view, if_pos h, hiter] at hview
      obtain ⟨m', rfl, hfind⟩ := Option.bind_eq_some_iff.mp hview.symm
      exact ⟨m', rfl, (m'.mem_keys_iff key).mpr ⟨v, hfind⟩⟩
    · rintro ⟨m', rfl, hkey⟩
      obtain ⟨v, hfind⟩ := (m'.mem_keys_iff key).mp hkey
      rw [Option.bind_some, hfind, Slot.view] at hview
      by_contra h
      rw [if_neg h] at hview
      cases hview
  points := by
    intro h
    obtain ⟨v, rest, hiter⟩ := hs.iter_of_flag hflag h
    obtain ⟨passed, hpassed⟩ := hwalks
    cases m with
    | none => simp [hiter] at hpassed
    | some m' => exact ⟨m', passed, v, rest, rfl, hpassed, hiter⟩

theorem forall₂_calledWith (hwalks : List.Forall₂ WalksOver maps slots)
    (hready : ∀ s ∈ slots, s.Ready)
    (hflags : ∀ s ∈ slots, s.existence = decide (s.head? = some key))
    (hviews : slots.map Slot.view = lookups maps key) :
    List.Forall₂ (CalledWith key) maps slots := by
  induction hwalks with
  | nil => exact List.Forall₂.nil
  | cons hw _ ih =>
    rw [lookups, List.map_cons, List.map_cons, List.cons.injEq] at hviews
    refine List.Forall₂.cons ?_ ?_
    · exact calledWith_of_walksOver hw (hready _ List.mem_cons_self)
        (hflags _ List.mem_cons_self) hviews.1
    · exact ih (fun s hs => hready s (List.mem_cons_of_mem _ hs))
        (fun s hs => hflags s (List.mem_cons_of_mem _ hs)) hviews.2

theorem forEachVectorCalls_states {calls : List (K × List (Slot K V))}
    (hcalls : forEachVectorCalls maps = some calls) :
    ∀ call ∈ calls, CallState maps call := by
  unfold forEachVectorCalls at hcalls
  split_ifs at hcalls
  cases hfirst : markFirstValid (maps.map Slot.setup) with
  | none =>
    rw [hfirst] at hcalls
    obtain rfl := Option.some.inj hcalls
    simp
  | some found =>
    rw [hfirst] at hcalls
    obtain ⟨key, hfold, hat⟩ := atKey_of_markFirstValid
      (l := maps.map Slot.setup) (by simp [setup_ready]) (by simp [setup_existence]) hfirst
    simp only [hfold] at hcalls
    refine mainCalls_spec _ ⟨hat, ?_⟩ hcalls
    rw [List.map_map, List.forall₂_map_right_iff]
    exact List.forall₂_same.mpr fun m _ => (walksOver_setup m).flagged key

/--
**The k-way traversal.**  For a non-empty vector of maps it ends.  The function is
called in increasing order of the keys, once for each key that occurs in some map,
and with flags and iterators of exactly those maps that contain the key.
-/
theorem forEachVectorCalls_spec
    (maps : List (Option (OrderedMap K V))) (hn : maps ≠ []) :
    ∃ calls, forEachVectorCalls maps = some calls ∧
      calls.Pairwise (fun a b => a.1 < b.1) ∧
      (∀ k, k ∈ calls.map Prod.fst ↔ ∃ m, some m ∈ maps ∧ k ∈ m.keys) ∧
      ∀ call ∈ calls, List.Forall₂ (CalledWith call.1) maps call.2 := by
  obtain ⟨m, hentries, hfind⟩ := forEachVector_spec maps hn
  rw [forEachVector_eq] at hentries
  obtain ⟨calls, hcalls, hviews⟩ := Option.map_eq_some_iff.mp hentries
  have hkeys : calls.map Prod.fst = m.keys := by
    rw [OrderedMap.keys, ← hviews, List.map_map]
    rfl
  refine ⟨calls, hcalls, ?_, ?_, ?_⟩
  · have hsorted := m.sorted
    rw [← hviews, List.pairwise_map] at hsorted
    exact hsorted
  · intro k
    rw [hkeys, m.mem_keys_iff, hfind]
    simp only [lookups, List.any_map, List.any_eq_true]
    constructor
    · rintro ⟨v, hv⟩
      split_ifs at hv with h
      obtain ⟨x, hx, hsome⟩ := h
      obtain ⟨m', rfl, hfind'⟩ := Option.bind_eq_some_iff.mp (Option.some_get hsome).symm
      exact ⟨m', hx, (m'.mem_keys_iff k).mpr ⟨_, hfind'⟩⟩
    · rintro ⟨m', hm', hk⟩
      obtain ⟨v, hv⟩ := (m'.mem_keys_iff k).mp hk
      exact ⟨_, if_pos ⟨some m', hm', by simp [hv]⟩⟩
  · intro call hcall
    have hstate := forEachVectorCalls_states hcalls call hcall
    have hview : call.2.map Slot.view = lookups maps call.1 := by
      have hmem : viewCall call ∈ m.entries := hviews ▸ List.mem_map_of_mem hcall
      have hlookup := (OrderedMap.find_eq_some_iff _ _ _).mpr hmem
      rw [hfind] at hlookup
      split_ifs at hlookup
      exact (Option.some.inj hlookup).symm
    exact forall₂_calledWith hstate.walks hstate.atKey.ready hstate.atKey.flags hview

/-- A map, a missing map and a map that shares a key with the first one. -/
def sampleMaps : List (Option (OrderedMap Nat Nat)) :=
  [some ((OrderedMap.empty.set 1 10).set 3 30), none, some (OrderedMap.empty.set 3 31)]

/-- Maps with the keys 1 and 3. -/
theorem forEachVectorCalls_sampleMaps :
    ∃ calls, forEachVectorCalls sampleMaps = some calls ∧ calls.map Prod.fst = [1, 3] ∧
      calls.Pairwise (fun a b => a.1 < b.1) ∧
      (∀ k, k ∈ calls.map Prod.fst ↔ ∃ m, some m ∈ sampleMaps ∧ k ∈ m.keys) ∧
      ∀ call ∈ calls, List.Forall₂ (CalledWith call.1) sampleMaps call.2 := by
  obtain ⟨calls, hcalls, hspec⟩ := forEachVectorCalls_spec sampleMaps (by decide)
  refine ⟨calls, hcalls, ?_, hspec⟩
  have hrun : (forEachVectorCalls sampleMaps).map (List.map Prod.fst) = some [1, 3] := by
    decide
  rw [hcalls] at hrun
  exact Option.some.inj hrun

end Coverage
end KedrAux
