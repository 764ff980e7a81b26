import Mathlib.Algebra.BigOperators.Group.List.Basic
import Mathlib.Data.List.Sort
import Mathlib.Tactic

/-!
# Ordered finite maps

A finite map over a linearly ordered key type, kept as the list of its entries
in strictly increasing key order.  This is the observable behaviour of an
ordered associative container: iteration visits the entries by increasing key,
`insert` never replaces a value, and two maps with the same lookups are equal.
-/

universe u v w

/-- The entries of a map, listed by strictly increasing key. -/
structure OrderedMap (K : Type u) (V : Type v) [LinearOrder K] where
  entries : List (K × V)
  sorted : entries.Pairwise (fun a b => a.1 < b.1)

namespace OrderedMap

variable {K : Type u} [LinearOrder K]
variable {V : Type v} {W : Type w}

variable {m m' : OrderedMap K V} {k k' : K} {v : V}

theorem eq_of_entries (h : m.entries = m'.entries) : m = m' := by
  cases m
  cases m'
  cases h
  rfl

instance [DecidableEq V] : DecidableEq (OrderedMap K V) :=
  fun m m' =>
    decidable_of_iff (m.entries = m'.entries)
      ⟨eq_of_entries, fun h => h ▸ rfl⟩

def empty : OrderedMap K V where
  entries := []
  sorted := List.Pairwise.nil

instance : Inhabited (OrderedMap K V) := ⟨empty⟩

/-- The value of the first entry listed under a key. -/
def findIn (k : K) : List (K × V) → Option V
  | [] => none
  | e :: l => if k = e.1 then some e.2 else findIn k l

/-- The value stored under a key. -/
def find (m : OrderedMap K V) (k : K) : Option V :=
  findIn k m.entries

def keys (m : OrderedMap K V) : List K :=
  m.entries.map Prod.fst

@[simp] theorem find_empty (k : K) : (empty : OrderedMap K V).find k = none := by
  rfl

theorem findIn_eq_some_of_sorted (k : K) (v : V) :
    ∀ {l : List (K × V)},
      l.Pairwise (fun a b => a.1 < b.1) →
      (findIn k l = some v ↔ (k, v) ∈ l)
  | [], _ => by
      simp [findIn]
  | (k', v') :: l, hl => by
      obtain ⟨hhead, htail⟩ := List.pairwise_cons.mp hl
      have ih := findIn_eq_some_of_sorted k v htail
      unfold findIn
      split_ifs with hk
      · change k = k' at hk
        subst hk
        -- a second entry under the head's key would have to exceed it
        have hnot : (k, v) ∉ l := fun hmem => lt_irrefl k (hhead (k, v) hmem)
        simp [hnot, eq_comm]
      · simp [ih, hk]

theorem find_eq_some_iff (m : OrderedMap K V) (k : K) (v : V) :
    m.find k = some v ↔ (k, v) ∈ m.entries :=
  findIn_eq_some_of_sorted k v m.sorted

theorem find_eq_none_iff (m : OrderedMap K V) (k : K) :
    m.find k = none ↔ ∀ v, (k, v) ∉ m.entries := by
  rw [Option.eq_none_iff_forall_ne_some]
  exact forall_congr' fun v => not_congr (find_eq_some_iff m k v)

@[simp] theorem mem_keys_iff (m : OrderedMap K V) (k : K) : k ∈ m.keys ↔ ∃ v, m.find k = some v := by
  simp [keys, find_eq_some_iff]

theorem keys_sorted (m : OrderedMap K V) : m.keys.Pairwise (· < ·) :=
  List.pairwise_map.mpr m.sorted

theorem entries_nodup (m : OrderedMap K V) : m.entries.Nodup :=
  m.sorted.imp fun h => fun he => lt_irrefl _ (he ▸ h)

/-- **Extensionality**: a map is determined by its lookups. -/
theorem ext_find (h : ∀ k, m.find k = m'.find k) : m = m' := by
  apply eq_of_entries
  have hperm : m.entries.Perm m'.entries := by
    rw [List.perm_ext_iff_of_nodup m.entries_nodup m'.entries_nodup]
    rintro ⟨k, v⟩
    rw [← find_eq_some_iff, ← find_eq_some_iff, h k]
  exact hperm.eq_of_pairwise
    (fun a b _ _ hab hba => absurd (hab.trans hba) (lt_irrefl _))
    m.sorted m'.sorted

/-- Store a value in an entry list, replacing the value its key had. -/
def setIn (k : K) (v : V) : List (K × V) → List (K × V)
  | [] => [(k, v)]
  | e :: l =>
    if k < e.1 then (k, v) :: e :: l
    else if k = e.1 then (k, v) :: l
    else e :: setIn k v l

theorem mem_setIn {e : K × V} :
    ∀ {l : List (K × V)}, e ∈ setIn k v l → e = (k, v) ∨ e ∈ l
  | [], h => by
      left
      simpa [setIn] using h
  | d :: l, h => by
      unfold setIn at h
      split_ifs at h
      · rcases List.mem_cons.mp h with h | h
        · exact Or.inl h
        · exact Or.inr h
      · rcases List.mem_cons.mp h with h | h
        · exact Or.inl h
        · exact Or.inr (List.mem_cons_of_mem _ h)
      · rcases List.mem_cons.mp h with h | h
        · exact Or.inr (h ▸ List.mem_cons_self)
        · rcases mem_setIn h with h | h
          · exact Or.inl h
          · exact Or.inr (List.mem_cons_of_mem _ h)

theorem setIn_sorted (k : K) (v : V) :
    ∀ {l : List (K × V)},
      l.Pairwise (fun a b => a.1 < b.1) →
      (setIn k v l).Pairwise (fun a b => a.1 < b.1)
  | [], _ => by
      simp [setIn]
  | e :: l, h => by
      obtain ⟨hhead, htail⟩ := List.pairwise_cons.mp h
      unfold setIn
      split_ifs with hlt heq
      · refine List.pairwise_cons.mpr ⟨?_, h⟩
        intro d hd
        rcases List.mem_cons.mp hd with rfl | hd
        · exact hlt
        · exact hlt.trans (hhead d hd)
      · refine List.pairwise_cons.mpr ⟨?_, htail⟩
        intro d hd
        exact heq ▸ hhead d hd
      · refine List.pairwise_cons.mpr ⟨?_, setIn_sorted k v htail⟩
        intro d hd
        rcases mem_setIn hd with rfl | hd
        · exact lt_of_le_of_ne (not_lt.mp hlt) (Ne.symm heq)
        · exact hhead d hd

/-- Store a value under a key, replacing the value the key had. -/
def set (m : OrderedMap K V) (k : K) (v : V) : OrderedMap K V where
  entries := setIn k v m.entries
  sorted := setIn_sorted k v m.sorted

theorem findIn_setIn (k k' : K) (v : V) :
    ∀ l : List (K × V),
      findIn k' (setIn k v l) = if k' = k then some v else findIn k' l
  | [] => by
      simp [setIn, findIn]
  | e :: l => by
      have ih := findIn_setIn k k' v l
      by_cases hk : k' = k
      · subst hk
        rw [if_pos rfl] at ih ⊢
        unfold setIn
        split_ifs with hlt heq
        · simp [findIn]
        · simp [findIn]
        · simp [findIn, heq, ih]
      · rw [if_neg hk] at ih ⊢
        unfold setIn
        split_ifs with hlt heq
        · simp [findIn, hk]
        · have hne : ¬k' = e.1 := heq ▸ hk
          simp [findIn, hk, hne]
        · simp [findIn, ih]

theorem find_set (m : OrderedMap K V) (k k' : K) (v : V) :
    (m.set k v).find k' = if k' = k then some v else m.find k' :=
  findIn_setIn k k' v m.entries

@[simp] theorem find_set_self (m : OrderedMap K V) (k : K) (v : V) :
    (m.set k v).find k = some v := by
  simp [find_set]

theorem find_set_of_ne (m : OrderedMap K V) (v : V) (h : k' ≠ k) :
    (m.set k v).find k' = m.find k' := by
  simp [find_set, h]

/--
Insertion that refuses to replace: the flag tells whether the entry was added.
-/
def insert (m : OrderedMap K V) (k : K) (v : V) : OrderedMap K V × Bool :=
  match m.find k with
  | some _ => (m, false)
  | none => (m.set k v, true)

theorem insert_of_find_none (v : V) (h : m.find k = none) : m.insert k v = (m.set k v, true) := by
  simp [insert, h]

theorem insert_of_find_some {v' : V} (v : V) (h : m.find k = some v') :
    m.insert k v = (m, false) := by
  simp [insert, h]

/-- Keep, drop or change each entry, key by key. -/
def filterMapVal
    (f : K → V → Option W) (m : OrderedMap K V) : OrderedMap K W where
  entries := m.entries.filterMap fun e => (f e.1 e.2).map fun w => (e.1, w)
  sorted := by
    refine List.pairwise_filterMap.mpr (m.sorted.imp ?_)
    intro a b hab a' ha b' hb
    obtain ⟨_, _, rfl⟩ := Option.map_eq_some_iff.mp ha
    obtain ⟨_, _, rfl⟩ := Option.map_eq_some_iff.mp hb
    exact hab

theorem find_filterMapVal (f : K → V → Option W) (m : OrderedMap K V) (k : K) :
    (m.filterMapVal f).find k = (m.find k).bind (f k) := by
  apply Option.ext
  intro w
  rw [find_eq_some_iff, Option.bind_eq_some_iff]
  simp only [filterMapVal, List.mem_filterMap, Option.map_eq_some_iff]
  constructor
  · rintro ⟨⟨k', v⟩, hmem, w', hw, heq⟩
    obtain ⟨rfl, rfl⟩ := Prod.mk.inj heq
    exact ⟨v, (find_eq_some_iff m k' v).mpr hmem, hw⟩
  · rintro ⟨v, hv, hw⟩
    exact ⟨(k, v), (find_eq_some_iff m k v).mp hv, w, hw, rfl⟩

theorem entries_eq_cons (hk : m.find k = some v) (hbehind : ∀ k' v', m'.find k' = some v' → k < k')
    (hother : ∀ k', k' ≠ k → m.find k' = m'.find k') :
    m.entries = (k, v) :: m'.entries := by
  have hsorted : ((k, v) :: m'.entries).Pairwise (fun a b => a.1 < b.1) := by
    refine List.pairwise_cons.mpr ⟨?_, m'.sorted⟩
    intro e he
    exact hbehind e.1 e.2 ((find_eq_some_iff m' e.1 e.2).mpr he)
  have heq : m = ⟨(k, v) :: m'.entries, hsorted⟩ := by
    apply ext_find
    intro k'
    by_cases hk' : k' = k
    · rw [hk', hk]
      exact (if_pos rfl).symm
    · rw [hother k' hk']
      exact (if_neg hk').symm
  rw [heq]

def mapVal (f : V → W) (m : OrderedMap K V) : OrderedMap K W :=
  m.filterMapVal fun _ v => some (f v)

@[simp] theorem find_mapVal (f : V → W) (m : OrderedMap K V) (k : K) :
    (m.mapVal f).find k = (m.find k).map f := by
  rw [mapVal, find_filterMapVal]
  cases m.find k <;> rfl

def erase (m : OrderedMap K V) (k : K) : OrderedMap K V :=
  m.filterMapVal fun k' v => if k' = k then none else some v

theorem find_erase (m : OrderedMap K V) (k k' : K) :
    (m.erase k).find k' = if k' = k then none else m.find k' := by
  rw [erase, find_filterMapVal]
  cases m.find k' <;> split_ifs <;> simp_all

/-- The first entry, in key order, whose key exceeds `k` if there is a `k`. -/
def nextAfter (m : OrderedMap K V) : Option K → Option (K × V)
  | none => m.entries.head?
  | some k => m.entries.find? fun e => decide (k < e.1)

/-- The key comes after the given one, if there is one. -/
def Beyond (k' : Option K) (k : K) : Prop :=
  ∀ a ∈ k', a < k

theorem nextAfter_eq_none {k : Option K} (h : m.nextAfter k = none) (hk' : m.find k' = some v) :
    ¬Beyond k k' := by
  rw [find_eq_some_iff] at hk'
  intro hbeyond
  cases k with
  | none =>
    rw [nextAfter, List.head?_eq_none_iff] at h
    rw [h] at hk'
    cases hk'
  | some k =>
    rw [nextAfter, List.find?_eq_none] at h
    exact h (k', v) hk' (decide_eq_true (hbeyond k rfl))

theorem nextAfter_eq_some {k : Option K} {e : K × V} (h : m.nextAfter k = some e) :
    m.find e.1 = some e.2 ∧ Beyond k e.1 ∧
      ∀ k' v, m.find k' = some v → Beyond k k' → e.1 ≤ k' := by
  have hsorted := m.sorted
  cases k with
  | none =>
    obtain ⟨l, hl⟩ := List.head?_eq_some_iff.mp h
    rw [hl, List.pairwise_cons] at hsorted
    refine ⟨(find_eq_some_iff _ _ _).mpr (hl ▸ List.mem_cons_self), by simp [Beyond], ?_⟩
    intro k' v hk' _
    rw [find_eq_some_iff, hl] at hk'
    rcases List.mem_cons.mp hk' with rfl | hk'
    · exact le_refl _
    · exact (hsorted.1 _ hk').le
  | some k =>
    obtain ⟨hke, l, l', hl, hbefore⟩ := List.find?_eq_some_iff_append.mp h
    have hke : k < e.1 := of_decide_eq_true hke
    refine ⟨(find_eq_some_iff _ _ _).mpr (by simp [hl]), by simpa [Beyond] using hke, ?_⟩
    intro k' v hk' hbeyond
    rw [find_eq_some_iff, hl] at hk'
    rw [hl, List.pairwise_append] at hsorted
    rcases List.mem_append.mp hk' with hk' | hk'
    · exact absurd (hbeyond k rfl) (by simpa using hbefore _ hk')
    · rcases List.mem_cons.mp hk' with rfl | hk'
      · exact le_refl _
      · exact ((List.pairwise_cons.mp hsorted.2.1).1 _ hk').le

theorem nextAfter_of_least {k : Option K} (hfind : m.find k' = some v) (hbeyond : Beyond k k')
    (hleast : ∀ k'' v, m.find k'' = some v → Beyond k k'' → k' ≤ k'') :
    m.nextAfter k = some (k', v) := by
  cases h : m.nextAfter k with
  | none => exact absurd hbeyond (nextAfter_eq_none h hfind)
  | some e =>
    obtain ⟨he, hbe, hmin⟩ := nextAfter_eq_some h
    have hkey : e.1 = k' := le_antisymm (hmin k' v hfind hbeyond) (hleast e.1 e.2 he hbe)
    rw [hkey, hfind] at he
    cases he
    rw [← hkey]

theorem nextAfter_none_of {k : Option K} (h : ∀ k' v, m.find k' = some v → ¬Beyond k k') :
    m.nextAfter k = none := by
  cases hnext : m.nextAfter k with
  | none => rfl
  | some e =>
    obtain ⟨he, hbe, -⟩ := nextAfter_eq_some hnext
    exact absurd hbe (h e.1 e.2 he)

theorem set_find_self (h : m.find k = some v) : m.set k v = m := by
  apply ext_find
  intro k'
  rw [find_set]
  split_ifs with hk
  · rw [hk, h]
  · rfl

theorem set_set (m : OrderedMap K V) (k : K) (v v' : V) : (m.set k v).set k v' = m.set k v' := by
  apply ext_find
  intro k'
  simp only [find_set]
  split_ifs <;> rfl

/-- Store a value under a key, or remove the key. -/
def alter (m : OrderedMap K V) (k : K) : Option V → OrderedMap K V
  | some v => m.set k v
  | none => m.erase k

theorem find_alter (m : OrderedMap K V) (k k' : K) (v : Option V) :
    (m.alter k v).find k' = if k' = k then v else m.find k' := by
  cases v with
  | none => exact find_erase m k k'
  | some v => exact find_set m k k' v

/-- Go through the entries of `m'` and let each one change what `m` has under its key. -/
def merge (f : Option V → W → Option V) (m : OrderedMap K V) (m' : OrderedMap K W) :
    OrderedMap K V :=
  m'.entries.foldl (fun m e => m.alter e.1 (f (m.find e.1) e.2)) m

theorem find_merge
    (f : Option V → W → Option V) (m : OrderedMap K V) (m' : OrderedMap K W) (k : K) :
    (m.merge f m').find k = (m'.find k).elim (m.find k) (f (m.find k)) := by
  have hfold : ∀ (l : List (K × W)) (m : OrderedMap K V), l.Pairwise (fun a b => a.1 < b.1) →
      (l.foldl (fun m e => m.alter e.1 (f (m.find e.1) e.2)) m).find k =
        (findIn k l).elim (m.find k) (f (m.find k)) := by
    intro l
    induction l with
    | nil => exact fun _ _ => rfl
    | cons e l ih =>
      intro m hl
      obtain ⟨hhead, htail⟩ := List.pairwise_cons.mp hl
      rw [List.foldl_cons, ih _ htail, find_alter, findIn]
      split_ifs with hk
      · -- the key does not come again
        have hnone : findIn k l = none := by
          rw [Option.eq_none_iff_forall_ne_some]
          intro w hw
          rw [findIn_eq_some_of_sorted k w htail] at hw
          exact lt_irrefl k (hk ▸ hhead (k, w) hw)
        rw [hnone, hk]
        rfl
      · rfl
  exact hfold m'.entries m m'.sorted

/-- Add the entries of `m'` to `m`; `f` joins the values of a common key. -/
def combine (f : V → V → V) (m m' : OrderedMap K V) : OrderedMap K V :=
  m.merge (fun v v' => some (v.elim v' fun v => f v v')) m'

theorem find_combine (f : V → V → V) (m m' : OrderedMap K V) (k : K) :
    (m.combine f m').find k =
      match m.find k, m'.find k with
      | some v, some v' => some (f v v')
      | some v, none => some v
      | none, v' => v' := by
  rw [combine, find_merge]
  cases m.find k <;> cases m'.find k <;> rfl

/-- Change the values of `m` whose key `m'` has too. -/
def update (f : V → W → V) (m : OrderedMap K V) (m' : OrderedMap K W) : OrderedMap K V :=
  m.merge (fun v w => v.map fun v => f v w) m'

theorem find_update (f : V → W → V) (m : OrderedMap K V) (m' : OrderedMap K W) (k : K) :
    (m.update f m').find k =
      (m.find k).map fun v => (m'.find k).elim v (f v) := by
  rw [update, find_merge]
  cases m.find k <;> cases m'.find k <;> rfl

def insertNew (m : OrderedMap K V) (k : K) (v : V) : Option (OrderedMap K V) :=
  match m.insert k v with
  | (m', true) => some m'
  | (_, false) => none

theorem insertNew_of_find_none (v : V) (h : m.find k = none) :
    m.insertNew k v = some (m.set k v) := by
  simp [insertNew, insert_of_find_none v h]

theorem insertNew_of_find_some {v' : V} (v : V) (h : m.find k = some v') :
    m.insertNew k v = none := by
  simp [insertNew, insert_of_find_some v h]

theorem insertNew_eq_some (h : m.insertNew k v = some m') : m.find k = none ∧ m' = m.set k v := by
  cases hfind : m.find k with
  | none =>
    rw [insertNew_of_find_none v hfind] at h
    cases h
    exact ⟨rfl, rfl⟩
  | some v' => simp [insertNew_of_find_some v hfind] at h

/-- Insert what `f` makes of each listed entry, if anything. -/
def insertResults
    (f : K → V → Option W) (l : List (K × V)) (m : OrderedMap K W) : OrderedMap K W :=
  l.foldl
    (fun m e =>
      match f e.1 e.2 with
      | some w => (m.insert e.1 w).1
      | none => m)
    m

theorem find_insertResults (f : K → V → Option W) :
    ∀ (l : List (K × V)) (m : OrderedMap K W),
      l.Pairwise (fun a b => a.1 < b.1) →
      (∀ e ∈ l, m.find e.1 = none) →
      ∀ k, (insertResults f l m).find k =
        match findIn k l with
        | some v => f k v
        | none => m.find k
  | [], _, _, _, _ => rfl
  | e :: l, m, hl, hm, k => by
      obtain ⟨hhead, htail⟩ := List.pairwise_cons.mp hl
      have hfresh : m.find e.1 = none := hm e (by simp)
      have hlater : ∀ e' ∈ l, m.find e'.1 = none :=
        fun e' he' => hm e' (by simp [he'])
      have hnotin : findIn e.1 l = none := by
        rw [Option.eq_none_iff_forall_ne_some]
        intro v hv
        rw [findIn_eq_some_of_sorted e.1 v htail] at hv
        exact lt_irrefl _ (hhead (e.1, v) hv)
      unfold insertResults
      rw [List.foldl_cons]
      change (insertResults f l _).find k = _
      cases hf : f e.1 e.2 with
      | none =>
        rw [find_insertResults f l m htail hlater]
        by_cases hk : k = e.1
        · subst hk
          simp [findIn, hnotin, hf, hfresh]
        · simp [findIn, hk]
      | some w =>
        dsimp only
        rw [insert_of_find_none w hfresh, find_insertResults f l _ htail]
        · by_cases hk : k = e.1
          · subst hk
            simp [findIn, hnotin, hf]
          · simp [findIn, hk, find_set_of_ne]
        · intro e' he'
          rw [find_set_of_ne _ _ (hhead e' he').ne', hlater e' he']

theorem insertResults_entries (f : K → V → Option W) (m : OrderedMap K V) :
    insertResults f m.entries empty = m.filterMapVal f := by
  apply ext_find
  intro k
  rw [find_insertResults f m.entries empty m.sorted (by simp), find_filterMapVal]
  change _ = (findIn k m.entries).bind (f k)
  cases findIn k m.entries <;> rfl

theorem foldlM_insertNew {f : K → V → Option W} {g : K → V → W} :
    ∀ {l : List (K × V)} {m : OrderedMap K W},
      l.Pairwise (fun a b => a.1 < b.1) →
      (∀ e ∈ l, f e.1 e.2 = some (g e.1 e.2)) →
      (∀ e ∈ l, m.find e.1 = none) →
      l.foldlM (fun m e => (f e.1 e.2).bind fun w => m.insertNew e.1 w) m =
        some (insertResults (fun k v => some (g k v)) l m)
  | [], _, _, _, _ => rfl
  | e :: l, m, hl, hf, hm => by
      obtain ⟨hhead, htail⟩ := List.pairwise_cons.mp hl
      have hfresh : m.find e.1 = none := hm e (by simp)
      have hstep : ((f e.1 e.2).bind fun w => m.insertNew e.1 w) =
          some (m.set e.1 (g e.1 e.2)) := by
        rw [hf e (by simp), Option.bind_some, insertNew_of_find_none _ hfresh]
      have hlater : ∀ e' ∈ l, (m.set e.1 (g e.1 e.2)).find e'.1 = none := by
        intro e' he'
        rw [find_set_of_ne _ _ (hhead e' he').ne', hm e' (by simp [he'])]
      rw [List.foldlM_cons, hstep, Option.bind_eq_bind, Option.bind_some,
        foldlM_insertNew htail (fun e' he' => hf e' (by simp [he'])) hlater]
      simp [insertResults, insert_of_find_none _ hfresh]

theorem foldlM_insertNew_eq_some {α : Type*} {key : α → K} {val : α → V} {l : List α}
    (h : l.foldlM (fun m a => m.insertNew (key a) (val a)) m = some m') :
    (l.map key).Nodup ∧ (∀ a ∈ l, m.find (key a) = none) ∧
      ∀ a ∈ l, m'.find (key a) = some (val a) := by
  have hkeep : ∀ {l : List α} {m m' : OrderedMap K V} {k : K} {v : V},
      l.foldlM (fun m a => m.insertNew (key a) (val a)) m = some m' →
      m.find k = some v → m'.find k = some v ∧ k ∉ l.map key := by
    intro l
    induction l with
    | nil =>
      rintro m m' k v h hk
      cases h
      exact ⟨hk, by simp⟩
    | cons a l ih =>
      intro m m' k v h hk
      rw [List.foldlM_cons] at h
      obtain ⟨m1, hm1, hrest⟩ := Option.bind_eq_some_iff.mp h
      obtain ⟨hnew, rfl⟩ := insertNew_eq_some hm1
      have hne : k ≠ key a := by
        rintro rfl
        rw [hnew] at hk
        cases hk
      obtain ⟨hfind, hnotin⟩ := ih hrest (by rw [find_set_of_ne _ _ hne, hk])
      exact ⟨hfind, by simpa [hne] using hnotin⟩
  induction l generalizing m with
  | nil => simp
  | cons a l ih =>
    rw [List.foldlM_cons] at h
    obtain ⟨m1, hm1, hrest⟩ := Option.bind_eq_some_iff.mp h
    obtain ⟨hnew, rfl⟩ := insertNew_eq_some hm1
    obtain ⟨hfind, hnotin⟩ := hkeep hrest (find_set_self m (key a) (val a))
    obtain ⟨hnodup, hfresh, hvals⟩ := ih hrest
    refine ⟨by simpa using ⟨by simpa using hnotin, hnodup⟩, ?_, ?_⟩
    · intro b hb
      rcases List.mem_cons.mp hb with rfl | hb
      · exact hnew
      · have hne : key b ≠ key a :=
          fun heq => hnotin (heq ▸ List.mem_map_of_mem hb)
        have hb' := hfresh b hb
        rwa [find_set_of_ne _ _ hne] at hb'
    · intro b hb
      rcases List.mem_cons.mp hb with rfl | hb
      · exact hfind
      · exact hvals b hb

/-- A map is rebuilt under computed keys only if these are its own keys. -/
theorem foldlM_insertNew_eq_self_iff {key : K × V → K} (hle : ∀ e ∈ m.entries, key e ≤ e.1) :
    m.entries.foldlM (fun m e => m.insertNew (key e) e.2) empty = some m ↔
      ∀ e ∈ m.entries, key e = e.1 := by
  constructor
  · intro h
    obtain ⟨hnodup, -, hvals⟩ := foldlM_insertNew_eq_some h
    by_contra hbad
    -- the least entry that changes its key takes the key of an entry that keeps it
    cases hfilter : m.entries.filter (fun e => decide (key e ≠ e.1)) with
    | nil =>
      rw [List.filter_eq_nil_iff] at hfilter
      exact hbad fun e he => by simpa using hfilter e he
    | cons e rest =>
      have hsorted := m.sorted.filter fun e => decide (key e ≠ e.1)
      rw [hfilter, List.pairwise_cons] at hsorted
      have he : e ∈ m.entries ∧ decide (key e ≠ e.1) = true :=
        List.mem_filter.mp (hfilter ▸ List.mem_cons_self)
      have hne : key e ≠ e.1 := of_decide_eq_true he.2
      have hlt : key e < e.1 := lt_of_le_of_ne (hle e he.1) hne
      have hmem : (key e, e.2) ∈ m.entries :=
        (find_eq_some_iff m (key e) e.2).mp (hvals e he.1)
      have hkey : key (key e, e.2) = key e := by
        by_contra hother
        have hin : (key e, e.2) ∈ e :: rest := by
          rw [← hfilter]
          exact List.mem_filter.mpr ⟨hmem, decide_eq_true hother⟩
        rcases List.mem_cons.mp hin with heq | hin
        · exact hne (congrArg Prod.fst heq)
        · exact absurd (hsorted.1 _ hin) (not_lt.mpr hlt.le)
      have heq := List.inj_on_of_nodup_map hnodup hmem he.1 hkey
      exact hne (congrArg Prod.fst heq)
  · intro h
    have hcongr : ∀ {l : List (K × V)} {m : OrderedMap K V}, (∀ e ∈ l, key e = e.1) →
        l.foldlM (fun m e => m.insertNew (key e) e.2) m =
          l.foldlM (fun m e => (some e.2).bind fun w => m.insertNew e.1 w) m := by
      intro l
      induction l with
      | nil => exact fun _ => rfl
      | cons e l ih =>
        intro m hl
        rw [List.foldlM_cons, List.foldlM_cons, hl e (by simp), Option.bind_some]
        congr 1
        funext m'
        exact ih fun e' he' => hl e' (by simp [he'])
    rw [hcongr h, foldlM_insertNew (f := fun _ v => some v) (g := fun _ v => v) m.sorted
      (fun _ _ => rfl) (by simp), insertResults_entries]
    congr 1
    apply ext_find
    intro k
    rw [find_filterMapVal, Option.bind_fun_some]

def sumOver {M : Type*} [AddCommMonoid M] (f : K → V → M) (m : OrderedMap K V) : M :=
  (m.entries.map fun e => f e.1 e.2).sum

theorem sumOver_eq_sum {M : Type*} [AddCommMonoid M] (f : K → V → M) (m : OrderedMap K V)
    {s : Finset K} (hs : ∀ k v, m.find k = some v → k ∈ s) :
    m.sumOver f = ∑ k ∈ s, (m.find k).elim 0 (f k) := by
  have hsub : m.keys.toFinset ⊆ s := by
    intro k hk
    obtain ⟨v, hv⟩ := (m.mem_keys_iff k).mp (List.mem_toFinset.mp hk)
    exact hs k v hv
  have hnodup : m.keys.Nodup := m.keys_sorted.imp fun h => h.ne
  rw [← Finset.sum_subset hsub, List.sum_toFinset _ hnodup, keys, List.map_map, sumOver]
  · congr 1
    apply List.map_congr_left
    rintro ⟨k, v⟩ he
    simp [(find_eq_some_iff m k v).mpr he]
  · intro k _ hk
    have hnone : m.find k = none := by
      rw [Option.eq_none_iff_forall_ne_some]
      intro v hv
      exact hk (List.mem_toFinset.mpr ((m.mem_keys_iff k).mpr ⟨v, hv⟩))
    simp [hnone]

theorem sumOver_eq_single {M : Type*} [AddCommMonoid M] {f : K → V → M} (k : K)
    (h : ∀ k' v, m.find k' = some v → k' ≠ k → f k' v = 0) :
    m.sumOver f = (m.find k).elim 0 (f k) := by
  let s : Finset K := {k} ∪ m.keys.toFinset
  have hs : ∀ k' v, m.find k' = some v → k' ∈ s := by
    intro k' v hv
    have hk := (m.mem_keys_iff k').mpr ⟨v, hv⟩
    simp [s, hk]
  rw [sumOver_eq_sum _ m hs, Finset.sum_eq_single k]
  · intro k' _ hne
    cases hk' : m.find k' with
    | none => rfl
    | some v => exact h k' v hk' hne
  · intro hk
    exact absurd (by simp [s]) hk

theorem sumOver_eq_of_find {M : Type*} [AddCommMonoid M] {f : K → V → M}
    (h : ∀ k, (m.find k).elim 0 (f k) = (m'.find k).elim 0 (f k)) :
    m.sumOver f = m'.sumOver f := by
  let s : Finset K := m.keys.toFinset ∪ m'.keys.toFinset
  have hs : ∀ k v, m.find k = some v → k ∈ s := by
    intro k v hv
    have hk := (m.mem_keys_iff k).mpr ⟨v, hv⟩
    simp [s, hk]
  have hs' : ∀ k v, m'.find k = some v → k ∈ s := by
    intro k v hv
    have hk := (m'.mem_keys_iff k).mpr ⟨v, hv⟩
    simp [s, hk]
  rw [sumOver_eq_sum f m hs, sumOver_eq_sum f m' hs']
  exact Finset.sum_congr rfl fun k _ => h k

/-- The sum does not change when a part of a value moves from one key to another. -/
theorem sumOver_transfer {M : Type*} [AddCommMonoid M] {f : K → V → M} {a b : K} (hab : a ≠ b)
    (htwo : (m.find a).elim 0 (f a) + (m.find b).elim 0 (f b) =
      (m'.find a).elim 0 (f a) + (m'.find b).elim 0 (f b))
    (hrest : ∀ k, k ≠ a → k ≠ b → (m.find k).elim 0 (f k) = (m'.find k).elim 0 (f k)) :
    m.sumOver f = m'.sumOver f := by
  let s : Finset K := {a, b} ∪ (m.keys.toFinset ∪ m'.keys.toFinset)
  have hs : ∀ k v, m.find k = some v → k ∈ s := by
    intro k v hv
    have hk := (m.mem_keys_iff k).mpr ⟨v, hv⟩
    simp [s, hk]
  have hs' : ∀ k v, m'.find k = some v → k ∈ s := by
    intro k v hv
    have hk := (m'.mem_keys_iff k).mpr ⟨v, hv⟩
    simp [s, hk]
  have ha : a ∈ s := by simp [s]
  have hb : b ∈ s.erase a := by simp [s, hab.symm]
  rw [sumOver_eq_sum f m hs, sumOver_eq_sum f m' hs', ← Finset.add_sum_erase s _ ha,
    ← Finset.add_sum_erase _ _ hb, ← Finset.add_sum_erase s _ ha, ← Finset.add_sum_erase _ _ hb,
    ← add_assoc, ← add_assoc, htwo]
  congr 1
  apply Finset.sum_congr rfl
  intro k hk
  simp only [Finset.mem_erase] at hk
  exact hrest k hk.2.1 hk.1

end OrderedMap
