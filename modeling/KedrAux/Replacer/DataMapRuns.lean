import KedrAux.Replacer.DataMap

/-!
# Runs of maps

Any calls of `data_map_add`, `data_map_get`, `data_map_delete` and `data_map_delete_all`, one after
another, behave as those of a finite partial map.  The chains hold only keys with their own hash,
and no key twice.
-/

namespace KedrAux
namespace Replacer
namespace DataMap

open ErrorCodes

variable {D U : Type}

structure FreeCall (D U : Type) where
  data : D
  key : Pointer
  userData : U

/-- The loop over one chain, which takes its first element out; `none` stands for `NULL`. -/
def deleteChain (freeData : Option U) :
    List (Pointer × D) → List (FreeCall D U) → List (FreeCall D U)
  | [], calls => calls
  | elem :: chain, calls =>
    match freeData with
    | none => deleteChain freeData chain calls
    | some userData => deleteChain freeData chain (calls ++ [⟨elem.2, elem.1, userData⟩])

def deleteAllWith (map : DataMap D) (freeData : Option U) : DataMap D × List (FreeCall D U) :=
  (List.range (2 ^ map.sizeBits)).foldl
    (fun s i =>
      ({ s.1 with hashTable := Function.update s.1.hashTable i [] },
        deleteChain freeData (s.1.hashTable i) s.2))
    (map, [])

inductive Call (D U : Type) where
  | add (alloc : Bool) (key : Pointer) (data : D)
  | get (key : Pointer)
  | delete (key : Pointer)
  | deleteAll (freeData : Option U)

/-- What a call returns; calls of `free_data` are recorded. -/
inductive Result (D U : Type) where
  | code (result : Int)
  | found (data : Option D)
  | freed (calls : List (FreeCall D U))

variable (hashPtr : Pointer → Nat → Nat)

def exec (map : DataMap D) : Call D U → Result D U × DataMap D
  | .add alloc key data =>
    (.code (map.add hashPtr alloc key data).1, (map.add hashPtr alloc key data).2)
  | .get key => (.found (map.get hashPtr key), map)
  | .delete key => (.found (map.delete hashPtr key).1, (map.delete hashPtr key).2)
  | .deleteAll freeData => (.freed (map.deleteAllWith freeData).2, (map.deleteAllWith freeData).1)

def execAll (map : DataMap D) : List (Call D U) → List (Result D U) × DataMap D
  | [] => ([], map)
  | call :: calls =>
    let (result, map) := map.exec hashPtr call
    let (results, map) := execAll map calls
    (result :: results, map)

variable {m : Pointer → Option D}

section FiniteMap

/-- `free_data` is called once for each pair, or never if there is no such function. -/
def FreesAll (m : Pointer → Option D) : Option U → List (FreeCall D U) → Prop
  | none, calls => calls = []
  | some userData, calls =>
    calls.Nodup ∧ ∀ call, call ∈ calls ↔ m call.key = some call.data ∧ call.userData = userData

/-- What a call may return for a partial map, and the map after it. -/
inductive Step : (Pointer → Option D) → Call D U → Result D U → (Pointer → Option D) → Prop
  | noMemory
      {m : Pointer → Option D}
      (key : Pointer)
      (data : D) :
      Step m (.add false key data) (.code (-ENOMEM)) m
  | present
      {m : Pointer → Option D}
      {key : Pointer}
      (data : D)
      (hkey : (m key).isSome) :
      Step m (.add true key data) (.code (-EINVAL)) m
  | added
      {m : Pointer → Option D}
      {key : Pointer}
      (data : D)
      (hkey : m key = none) :
      Step m (.add true key data) (.code 0) (Function.update m key (some data))
  | get
      {m : Pointer → Option D}
      (key : Pointer) :
      Step m (.get key) (.found (m key)) m
  | delete
      {m : Pointer → Option D}
      (key : Pointer) :
      Step m (.delete key) (.found (m key)) (Function.update m key none)
  | deleteAll
      {m : Pointer → Option D}
      {freeData : Option U}
      {calls : List (FreeCall D U)}
      (hcalls : FreesAll m freeData calls) :
      Step m (.deleteAll freeData) (.freed calls) fun _ => none

inductive Steps :
    (Pointer → Option D) → List (Call D U) → List (Result D U) → (Pointer → Option D) → Prop
  | nil (m : Pointer → Option D) : Steps m [] [] m
  | cons
      {m m' m'' : Pointer → Option D}
      {call : Call D U}
      {calls : List (Call D U)}
      {result : Result D U}
      {results : List (Result D U)}
      (hstep : Step m call result m')
      (hsteps : Steps m' calls results m'') :
      Steps m (call :: calls) (result :: results) m''

def FiniteKeys (m : Pointer → Option D) : Prop := {key | m key ≠ none}.Finite

variable {m' : Pointer → Option D}

theorem FiniteKeys.update (h : FiniteKeys m) (key : Pointer) (data : Option D) :
    FiniteKeys (Function.update m key data) := by
  refine (h.insert key).subset ?_
  intro key' hkey'
  by_cases heq : key' = key
  · exact .inl heq
  · right
    simpa [heq] using hkey'

theorem Step.finiteKeys {call : Call D U} {result : Result D U} (h : Step m call result m')
    (hm : FiniteKeys m) : FiniteKeys m' := by
  cases h with
  | noMemory => exact hm
  | present => exact hm
  | added => exact hm.update _ _
  | get => exact hm
  | delete => exact hm.update _ _
  | deleteAll => simp [FiniteKeys]

theorem Steps.finiteKeys {calls : List (Call D U)} {results : List (Result D U)}
    (h : Steps m calls results m') (hm : FiniteKeys m) :
    FiniteKeys m' := by
  induction h with
  | nil => exact hm
  | cons hstep _ ih => exact ih (hstep.finiteKeys hm)

end FiniteMap

/-- The map holds each key in the chain of its hash, once, with the data of the partial map. -/
structure Represents (map : DataMap D) (m : Pointer → Option D) : Prop where
  hash : ∀ i elem, elem ∈ map.hashTable i → hashPtr elem.1 map.sizeBits = i
  distinct : map.DistinctKeys
  get : ∀ key, map.get hashPtr key = m key

variable {map : DataMap D}

section Represents

variable {hashPtr}

/-- A pair is in the chain of its key, and in no other one. -/
theorem Represents.mem_iff (h : map.Represents hashPtr m) (i : Nat) (key : Pointer) (data : D) :
    (key, data) ∈ map.hashTable i ↔ hashPtr key map.sizeBits = i ∧ m key = some data := by
  constructor
  · intro hmem
    have hhash := h.hash i _ hmem
    refine ⟨hhash, ?_⟩
    rw [← h.get, DataMap.get, hhash]
    have hfind : (map.hashTable i).find? (fun elem => elem.1 == key) = some (key, data) := by
      have hsome : ((map.hashTable i).find? fun elem => elem.1 == key).isSome :=
        List.find?_isSome.mpr ⟨_, hmem, by simp⟩
      obtain ⟨elem, helem⟩ := Option.isSome_iff_exists.mp hsome
      have hfst := List.find?_some helem
      rw [helem, List.inj_on_of_nodup_map (h.distinct i) (List.mem_of_find?_eq_some helem) hmem
        (by simpa using hfst)]
    rw [hfind]
    rfl
  · rintro ⟨rfl, hdata⟩
    rw [← h.get] at hdata
    obtain ⟨⟨key', data'⟩, helem, rfl⟩ := Option.map_eq_some_iff.mp hdata
    have hfst : key' = key := by simpa using List.find?_some helem
    subst hfst
    exact List.mem_of_find?_eq_some helem

theorem represents_empty (sizeBits : Nat) :
    Represents hashPtr (⟨sizeBits, fun _ => []⟩ : DataMap D) fun _ => none where
  hash _ _ hmem := absurd hmem List.not_mem_nil
  distinct _ := List.nodup_nil
  get _ := rfl

theorem Represents.hash_update (h : map.Represents hashPtr m) {i : Nat} {chain : List (Pointer × D)}
    (hchain : ∀ elem ∈ chain, hashPtr elem.1 map.sizeBits = i) (j : Nat) (elem : Pointer × D)
    (hmem : elem ∈ Function.update map.hashTable i chain j) : hashPtr elem.1 map.sizeBits = j := by
  by_cases heq : j = i
  · subst heq
    rw [Function.update_self] at hmem
    exact hchain elem hmem
  · rw [Function.update_of_ne heq] at hmem
    exact h.hash j elem hmem

end Represents

section Calls

variable {hashPtr}

theorem Represents.add (h : map.Represents hashPtr m) (alloc : Bool) (key : Pointer) (data : D) :
    ∃ m', Step (U := U) m (.add alloc key data) (.code (map.add hashPtr alloc key data).1) m' ∧
      (map.add hashPtr alloc key data).2.Represents hashPtr m' := by
  cases alloc with
  | false => exact ⟨m, .noMemory key data, h⟩
  | true =>
    have hany : (map.hashTable (hashPtr key map.sizeBits)).any (fun elem => elem.1 == key) =
        (m key).isSome := by
      rw [any_eq_isSome_get, h.get]
    cases hkey : m key with
    | some old =>
      rw [hkey, Option.isSome_some] at hany
      have hadd : map.add hashPtr true key data = (-EINVAL, map) := by
        simp [DataMap.add, hany]
      rw [hadd]
      exact ⟨m, .present data (by rw [hkey, Option.isSome_some]), h⟩
    | none =>
      have hget : map.get hashPtr key = none := (h.get key).trans hkey
      have hcode := (get_add hget data).1
      refine ⟨Function.update m key (some data), ?_, ⟨?_, h.distinct.add true key data, ?_⟩⟩
      · rw [hcode]
        exact .added data hkey
      · rw [hkey, Option.isSome_none] at hany
        simp only [DataMap.add, hany, Bool.not_true, Bool.false_eq_true, if_false]
        refine h.hash_update ?_
        intro elem hmem
        rcases List.mem_cons.mp hmem with rfl | hmem
        · rfl
        · exact h.hash _ elem hmem
      · intro key'
        have hfound : (map.add hashPtr true key data).2.get hashPtr key' =
            if key' = key then some data else map.get hashPtr key' := by
          rcases add_cases true key data with ⟨hne, _⟩ | ⟨_, _, hfound⟩
          · exact absurd hcode hne
          · exact hfound key'
        rw [hfound, h.get, Function.update_apply]

theorem Represents.delete (h : map.Represents hashPtr m) (key : Pointer) :
    (map.delete hashPtr key).1 = m key ∧
      (map.delete hashPtr key).2.Represents hashPtr (Function.update m key none) := by
  refine ⟨h.get key, ⟨?_, h.distinct.delete key, ?_⟩⟩
  · refine h.hash_update ?_
    intro elem hmem
    exact h.hash _ elem (List.mem_of_mem_eraseP hmem)
  · intro key'
    rw [get_delete h.distinct, h.get, Function.update_apply]

theorem deleteChain_eq (freeData : Option U) (chain : List (Pointer × D))
    (calls : List (FreeCall D U)) :
    deleteChain freeData chain calls =
      calls ++ freeData.elim [] fun userData => chain.map fun elem => ⟨elem.2, elem.1, userData⟩ := by
  induction chain generalizing calls with
  | nil => cases freeData <;> simp [deleteChain]
  | cons elem chain ih =>
    cases freeData with
    | none => simpa [deleteChain] using ih calls
    | some userData => simp [deleteChain, ih]

theorem foldl_deleteChain (map : DataMap D) (freeData : Option U) (n : Nat) :
    (List.range n).foldl
        (fun s i =>
          ({ s.1 with hashTable := Function.update s.1.hashTable i [] },
            deleteChain freeData (s.1.hashTable i) s.2))
        (map, []) =
      ({ map with hashTable := fun i => if i < n then [] else map.hashTable i },
        freeData.elim [] fun userData =>
          (List.range n).flatMap fun i =>
            (map.hashTable i).map fun elem => ⟨elem.2, elem.1, userData⟩) := by
  induction n with
  | zero =>
    cases freeData <;> simp
  | succ n ih =>
    rw [List.range_succ, List.foldl_append, ih, List.foldl_cons, List.foldl_nil, deleteChain_eq]
    refine Prod.ext ?_ ?_
    · simp only [DataMap.mk.injEq, true_and]
      funext i
      by_cases heq : i = n
      · subst heq
        simp
      · have hiff : i < n + 1 ↔ i < n := by omega
        simp [heq, hiff]
    · cases freeData with
      | none => rfl
      | some userData => simp

theorem deleteAllWith_fst (map : DataMap D) (freeData : Option U) :
    (map.deleteAllWith freeData).1 = map.deleteAll := by
  rw [deleteAllWith, foldl_deleteChain]
  rfl

theorem Represents.freesAll (h : map.Represents hashPtr m)
    (hrange : ∀ key, hashPtr key map.sizeBits < 2 ^ map.sizeBits) (freeData : Option U) :
    FreesAll m freeData (map.deleteAllWith freeData).2 := by
  rw [deleteAllWith, foldl_deleteChain]
  cases freeData with
  | none => rfl
  | some userData =>
    refine ⟨?_, ?_⟩
    · rw [Option.elim_some, List.nodup_flatMap]
      refine ⟨fun i _ => ?_, ?_⟩
      · refine List.Nodup.map_on ?_ (List.Nodup.of_map _ (h.distinct i))
        intro elem _ elem' _ heq
        exact Prod.ext (congrArg FreeCall.key heq) (congrArg FreeCall.data heq)
      · refine List.nodup_range.imp ?_
        intro i j hne
        rw [Function.onFun, List.disjoint_left]
        intro call hi hj
        obtain ⟨elem, helem, rfl⟩ := List.mem_map.mp hi
        obtain ⟨elem', helem', heq⟩ := List.mem_map.mp hj
        have hkey : elem'.1 = elem.1 := congrArg FreeCall.key heq
        have hhash := h.hash j _ helem'
        rw [hkey, h.hash i _ helem] at hhash
        exact hne hhash
    · rintro ⟨data, key, userData'⟩
      rw [Option.elim_some, List.mem_flatMap]
      constructor
      · rintro ⟨i, _, hmem⟩
        obtain ⟨elem, helem, heq⟩ := List.mem_map.mp hmem
        cases heq
        exact ⟨((h.mem_iff i _ _).mp helem).2, rfl⟩
      · rintro ⟨hdata, rfl⟩
        refine ⟨_, List.mem_range.mpr (hrange key), List.mem_map.mpr ⟨(key, data), ?_, rfl⟩⟩
        exact (h.mem_iff _ key data).mpr ⟨rfl, hdata⟩

theorem Represents.deleteAll (h : map.Represents hashPtr m)
    (hrange : ∀ key, hashPtr key map.sizeBits < 2 ^ map.sizeBits) :
    map.deleteAll.Represents hashPtr fun _ => none := by
  have hempty : map.deleteAll.hashTable = fun _ => [] := by
    funext i
    simp only [DataMap.deleteAll]
    split_ifs with hi
    · rfl
    · rw [List.eq_nil_iff_forall_not_mem]
      intro elem hmem
      exact hi (h.hash i elem hmem ▸ hrange elem.1)
  have heq : map.deleteAll = ⟨map.sizeBits, fun _ => []⟩ := by
    rw [← hempty]
    rfl
  rw [heq]
  exact represents_empty map.sizeBits

end Calls

section Runs

variable {hashPtr}

theorem sizeBits_exec (hashPtr : Pointer → Nat → Nat) (map : DataMap D) (call : Call D U) :
    (map.exec hashPtr call).2.sizeBits = map.sizeBits := by
  cases call with
  | add alloc key data =>
    simp only [exec, add]
    split_ifs <;> rfl
  | get key => rfl
  | delete key => rfl
  | deleteAll freeData =>
    rw [exec, deleteAllWith_fst]
    rfl

theorem Represents.exec (h : map.Represents hashPtr m)
    (hrange : ∀ key, hashPtr key map.sizeBits < 2 ^ map.sizeBits) (call : Call D U) :
    ∃ m', Step m call (map.exec hashPtr call).1 m' ∧
      (map.exec hashPtr call).2.Represents hashPtr m' := by
  cases call with
  | add alloc key data => exact h.add alloc key data
  | get key =>
    refine ⟨m, ?_, h⟩
    rw [DataMap.exec, h.get]
    exact .get key
  | delete key =>
    obtain ⟨hfound, hdelete⟩ := h.delete key
    refine ⟨_, ?_, hdelete⟩
    rw [DataMap.exec, hfound]
    exact .delete key
  | deleteAll freeData =>
    refine ⟨_, .deleteAll (h.freesAll hrange freeData), ?_⟩
    rw [DataMap.exec, deleteAllWith_fst]
    exact h.deleteAll hrange

theorem Represents.execAll (h : map.Represents hashPtr m)
    (hrange : ∀ key, hashPtr key map.sizeBits < 2 ^ map.sizeBits) (calls : List (Call D U)) :
    ∃ m', Steps m calls (map.execAll hashPtr calls).1 m' ∧
      (map.execAll hashPtr calls).2.Represents hashPtr m' := by
  induction calls generalizing map m with
  | nil => exact ⟨m, .nil m, h⟩
  | cons call calls ih =>
    obtain ⟨m', hstep, hrep⟩ := h.exec hrange call
    have hbits := sizeBits_exec hashPtr map call
    obtain ⟨m'', hsteps, hrep'⟩ := ih hrep (by rwa [hbits])
    exact ⟨m'', .cons hstep hsteps, hrep'⟩

/-- Any calls on a new map give the results and the content of a finite partial map. -/
theorem execAll_refines (hashPtr : Pointer → Nat → Nat) (sizeBits : Nat)
    (hrange : ∀ key, hashPtr key sizeBits < 2 ^ sizeBits) (calls : List (Call D U)) :
    ∃ m, Steps (fun _ => none) calls
        (execAll hashPtr (⟨sizeBits, fun _ => []⟩ : DataMap D) calls).1 m ∧
      FiniteKeys m ∧
      (execAll hashPtr (⟨sizeBits, fun _ => []⟩ : DataMap D) calls).2.Represents hashPtr m := by
  obtain ⟨m, hsteps, hrep⟩ := (represents_empty sizeBits).execAll hrange calls
  exact ⟨m, hsteps, hsteps.finiteKeys (by simp [FiniteKeys]), hrep⟩

/-- Keys that collide in a table of two chains. -/
def collidingCalls : List (Call Nat Nat) :=
  [.add true 2 20, .add true 4 40, .add true 2 21, .delete 2, .get 4, .deleteAll (some 7), .get 4]

/-- Two keys in one chain, one of which is added twice. -/
theorem execAll_refines_collidingCalls :
    ∃ m, Steps (fun _ => none) collidingCalls
        (execAll (fun key sizeBits => key % 2 ^ sizeBits) (⟨1, fun _ => []⟩ : DataMap Nat)
          collidingCalls).1 m ∧
      FiniteKeys m ∧
      (execAll (fun key sizeBits => key % 2 ^ sizeBits) (⟨1, fun _ => []⟩ : DataMap Nat)
        collidingCalls).2.Represents (fun key sizeBits => key % 2 ^ sizeBits) m :=
  execAll_refines _ 1 (fun key => Nat.mod_lt key (by decide)) collidingCalls

end Runs

end DataMap
end Replacer
end KedrAux
