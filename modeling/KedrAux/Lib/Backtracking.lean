import Mathlib.Computability.Language
import Mathlib.Tactic

/-!
# Backtracking patterns

Regular expressions with the priorities of backtracking matchers: the first alternative is tried
first, and a repetition of a character class takes as much as it can.  A match has the texts of
the named groups in the order in which the groups are closed.

Words of a prefix-free language are determined by any text that begins with them.
-/

namespace Backtracking

universe u v

variable {α : Type u} {γ : Type v}

inductive Pattern (α : Type u) (γ : Type v) where
  | empty
  | one (p : α → Bool)
  | many (p : α → Bool)
  | seq (r t : Pattern α γ)
  | alt (r t : Pattern α γ)
  | group (name : γ) (r : Pattern α γ)

structure Match (α : Type u) (γ : Type v) where
  text : List α
  rest : List α
  groups : List (γ × List α)

variable {w : List α}

namespace Pattern

def lit [DecidableEq α] : List α → Pattern α γ
  | [] => empty
  | c :: text => seq (one fun d => decide (d = c)) (lit text)

def some (p : α → Bool) : Pattern α γ := seq (one p) (many p)

def opt (r : Pattern α γ) : Pattern α γ := alt r empty

/-- Matches of a repeated character class, the longest one first. -/
def runMany (p : α → Bool) : List α → List (Match α γ)
  | [] => [⟨[], [], []⟩]
  | a :: s =>
    if p a then
      (runMany p s).map (fun m => { m with text := a :: m.text }) ++ [⟨[], a :: s, []⟩]
    else [⟨[], a :: s, []⟩]

/-- All matches at the beginning of the text, in the order in which they are tried. -/
def run : Pattern α γ → List α → List (Match α γ)
  | empty, s => [⟨[], s, []⟩]
  | one _, [] => []
  | one p, a :: s => if p a then [⟨[a], s, []⟩] else []
  | many p, s => runMany p s
  | seq r t, s => (run r s).flatMap fun m =>
    (run t m.rest).map fun m' => ⟨m.text ++ m'.text, m'.rest, m.groups ++ m'.groups⟩
  | alt r t, s => run r s ++ run t s
  | group name r, s => (run r s).map fun m => { m with groups := m.groups ++ [(name, m.text)] }

def find (r : Pattern α γ) (s : List α) : Option (Match α γ) := (r.run s).head?

def language : Pattern α γ → Language α
  | empty => 1
  | one p => {w | ∃ a, p a = true ∧ w = [a]}
  | many p => {w | ∀ a ∈ w, p a = true}
  | seq r t => language r * language t
  | alt r t => language r + language t
  | group _ r => language r

@[simp] theorem language_empty : (empty : Pattern α γ).language = 1 := rfl

@[simp] theorem language_seq (r t : Pattern α γ) :
    (seq r t).language = r.language * t.language := rfl

@[simp] theorem language_alt (r t : Pattern α γ) :
    (alt r t).language = r.language + t.language := rfl

@[simp] theorem language_group (name : γ) (r : Pattern α γ) :
    (group name r).language = r.language := rfl

@[simp] theorem language_opt (r : Pattern α γ) : (opt r).language = r.language + 1 := rfl

@[simp] theorem mem_one {p : α → Bool} :
    w ∈ (one p : Pattern α γ).language ↔ ∃ a, p a = true ∧ w = [a] := Iff.rfl

@[simp] theorem mem_many {p : α → Bool} :
    w ∈ (many p : Pattern α γ).language ↔ ∀ a ∈ w, p a = true := Iff.rfl

theorem mem_lit [DecidableEq α] {text : List α} :
    w ∈ (lit text : Pattern α γ).language ↔ w = text := by
  induction text generalizing w with
  | nil => exact Language.mem_one w
  | cons c text ih =>
    rw [lit, language_seq, Language.mem_mul]
    constructor
    · rintro ⟨_, ⟨a, ha, rfl⟩, v, hv, rfl⟩
      rw [ih.mp hv, of_decide_eq_true ha]
      rfl
    · rintro rfl
      exact ⟨[c], ⟨c, decide_eq_true rfl, rfl⟩, text, ih.mpr rfl, rfl⟩

theorem mem_some {p : α → Bool} :
    w ∈ (some p : Pattern α γ).language ↔ w ≠ [] ∧ ∀ a ∈ w, p a = true := by
  rw [some, language_seq, Language.mem_mul]
  constructor
  · rintro ⟨_, ⟨a, ha, rfl⟩, v, hv, rfl⟩
    refine ⟨List.cons_ne_nil _ _, ?_⟩
    intro b hb
    rcases List.mem_cons.mp hb with rfl | hb
    · exact ha
    · exact hv b hb
  · rintro ⟨hne, hall⟩
    cases w with
    | nil => exact absurd rfl hne
    | cons a w =>
      exact ⟨[a], ⟨a, hall a List.mem_cons_self, rfl⟩, w,
        fun b hb => hall b (List.mem_cons_of_mem _ hb), rfl⟩

variable {s : List α}

theorem mem_runMany {p : α → Bool} {rest : List α} :
    (∃ m ∈ (runMany p s : List (Match α γ)), m.text = w ∧ m.rest = rest) ↔
      s = w ++ rest ∧ ∀ a ∈ w, p a = true := by
  induction s generalizing w with
  | nil =>
    rw [runMany]
    constructor
    · rintro ⟨m, hm, rfl, rfl⟩
      rw [List.mem_singleton.mp hm]
      simp
    · rintro ⟨hs, -⟩
      obtain ⟨rfl, rfl⟩ := List.append_eq_nil_iff.mp hs.symm
      exact ⟨_, List.mem_singleton_self _, rfl, rfl⟩
  | cons a s ih =>
    have hnil : (∃ m ∈ [(⟨[], a :: s, []⟩ : Match α γ)], m.text = w ∧ m.rest = rest) ↔
        w = [] ∧ a :: s = rest := by
      constructor
      · rintro ⟨m, hm, rfl, rfl⟩
        rw [List.mem_singleton.mp hm]
        exact ⟨rfl, rfl⟩
      · rintro ⟨rfl, rfl⟩
        exact ⟨_, List.mem_singleton_self _, rfl, rfl⟩
    rw [runMany]
    cases w with
    | nil =>
      split_ifs with hp
      · simp only [List.mem_append, or_and_right, exists_or, hnil, List.mem_map]
        constructor
        · rintro (⟨_, ⟨m, hm, rfl⟩, htext, -⟩ | ⟨-, hs⟩)
          · cases htext
          · exact ⟨hs, fun a ha => absurd ha List.not_mem_nil⟩
        · exact fun h => Or.inr ⟨trivial, h.1⟩
      · rw [hnil]
        exact ⟨fun h => ⟨h.2, fun a ha => absurd ha List.not_mem_nil⟩, fun h => ⟨rfl, h.1⟩⟩
    | cons b w =>
      split_ifs with hp
      · simp only [List.mem_append, or_and_right, exists_or, hnil, List.mem_map]
        constructor
        · rintro (⟨_, ⟨m, hm, rfl⟩, htext, hrest⟩ | ⟨hnil, -⟩)
          · obtain ⟨rfl, htext'⟩ := List.cons.inj htext
            obtain ⟨hs, hall⟩ := ih.mp ⟨m, hm, htext', hrest⟩
            refine ⟨by rw [hs]; rfl, fun c hc => ?_⟩
            rcases List.mem_cons.mp hc with rfl | hc
            · exact hp
            · exact hall c hc
          · cases hnil
        · rintro ⟨hs, hall⟩
          obtain ⟨rfl, hs'⟩ := List.cons.inj hs
          obtain ⟨m, hm, htext, hrest⟩ :=
            ih.mpr ⟨hs', fun c hc => hall c (List.mem_cons_of_mem _ hc)⟩
          exact Or.inl ⟨_, ⟨m, hm, rfl⟩, by rw [htext], hrest⟩
      · rw [hnil]
        constructor
        · rintro ⟨hnil, -⟩
          cases hnil
        · rintro ⟨hs, hall⟩
          obtain ⟨rfl, -⟩ := List.cons.inj hs
          exact absurd (hall a List.mem_cons_self) hp

variable {r : Pattern α γ}

/-- The matches are the beginnings of the text that the pattern describes. -/
theorem mem_run {rest : List α} :
    (∃ m ∈ r.run s, m.text = w ∧ m.rest = rest) ↔ s = w ++ rest ∧ w ∈ r.language := by
  induction r generalizing s w rest with
  | empty =>
    rw [run, language_empty, Language.mem_one]
    constructor
    · rintro ⟨m, hm, rfl, rfl⟩
      rw [List.mem_singleton.mp hm]
      exact ⟨rfl, rfl⟩
    · rintro ⟨rfl, rfl⟩
      exact ⟨_, List.mem_singleton_self _, rfl, rfl⟩
  | one p =>
    rw [mem_one]
    cases s with
    | nil =>
      rw [run]
      constructor
      · rintro ⟨m, hm, -⟩
        cases hm
      · rintro ⟨hs, a, -, rfl⟩
        cases hs
    | cons a s =>
      rw [run]
      constructor
      · rintro ⟨m, hm, rfl, rfl⟩
        split_ifs at hm with hp
        · rw [List.mem_singleton.mp hm]
          exact ⟨rfl, a, hp, rfl⟩
        · cases hm
      · rintro ⟨hs, b, hp, rfl⟩
        obtain ⟨rfl, rfl⟩ := List.cons.inj hs
        rw [if_pos hp]
        exact ⟨_, List.mem_singleton_self _, rfl, rfl⟩
  | many p =>
    rw [run, mem_many]
    exact mem_runMany
  | seq r t ihr iht =>
    rw [run, language_seq, Language.mem_mul]
    simp only [List.mem_flatMap, List.mem_map]
    constructor
    · rintro ⟨_, ⟨m, hm, m', hm', rfl⟩, rfl, rfl⟩
      obtain ⟨hs, hr⟩ := ihr.mp ⟨m, hm, rfl, rfl⟩
      obtain ⟨hrest, ht⟩ := iht.mp ⟨m', hm', rfl, rfl⟩
      refine ⟨?_, m.text, hr, m'.text, ht, rfl⟩
      rw [List.append_assoc, ← hrest, ← hs]
    · rintro ⟨hs, u, hu, v, hv, rfl⟩
      rw [List.append_assoc] at hs
      obtain ⟨m, hm, hmtext, hmrest⟩ := ihr.mpr ⟨hs, hu⟩
      obtain ⟨m', hm', hmtext', hmrest'⟩ := iht.mpr ⟨hmrest, hv⟩
      exact ⟨_, ⟨m, hm, m', hm', rfl⟩, by rw [hmtext, hmtext'], hmrest'⟩
  | alt r t ihr iht =>
    rw [run, language_alt, Language.mem_add, and_or_left, ← ihr, ← iht]
    simp only [List.mem_append, or_and_right, exists_or]
  | group name r ih =>
    rw [run, language_group, ← ih]
    simp only [List.mem_map]
    constructor
    · rintro ⟨_, ⟨m, hm, rfl⟩, htext, hrest⟩
      exact ⟨m, hm, htext, hrest⟩
    · rintro ⟨m, hm, htext, hrest⟩
      exact ⟨_, ⟨m, hm, rfl⟩, htext, hrest⟩

theorem find_eq_some {m : Match α γ} (h : r.find s = Option.some m) :
    s = m.text ++ m.rest ∧ m.text ∈ r.language :=
  mem_run.mp ⟨m, List.mem_of_mem_head? h, rfl, rfl⟩

theorem find_eq_none :
    r.find s = none ↔ ∀ w rest, s = w ++ rest → w ∉ r.language := by
  rw [find, List.head?_eq_none_iff, List.eq_nil_iff_forall_not_mem]
  constructor
  · intro h w rest hs hw
    obtain ⟨m, hm, -⟩ := mem_run.mpr ⟨hs, hw⟩
    exact h m hm
  · intro h m hm
    obtain ⟨hs, hw⟩ := mem_run.mp ⟨m, hm, rfl, rfl⟩
    exact h _ _ hs hw

theorem find_alt (r t : Pattern α γ) (s : List α) :
    (alt r t).find s = (r.find s).or (t.find s) := by
  rw [find, find, find, run, List.head?_append]

theorem find_group (name : γ) (r : Pattern α γ) (s : List α) :
    (group name r).find s =
      (r.find s).map fun m => { m with groups := m.groups ++ [(name, m.text)] } := by
  rw [find, find, run, List.head?_map]

end Pattern

/-- A text begins with at most one word of the language. -/
def PrefixFree (l : Language α) : Prop :=
  ∀ w ∈ l, ∀ w' ∈ l, ∀ t t', w ++ t = w' ++ t' → w = w'

/-- All words begin with characters of the class. -/
def Starts (p : α → Bool) (l : Language α) : Prop :=
  ∀ w ∈ l, ∃ a w', w = a :: w' ∧ p a = true

variable {c : α}

/-- A text that begins with characters of a class and goes on with another one. -/
theorem span_unique {p : α → Bool} {x x' y y' : List α} {c' : α}
    (hx : ∀ a ∈ x, p a = true) (hc : p c = false) (hx' : ∀ a ∈ x', p a = true) (hc' : p c' = false)
    (h : x ++ c :: y = x' ++ c' :: y') : x = x' ∧ c = c' ∧ y = y' := by
  induction x generalizing x' with
  | nil =>
    cases x' with
    | nil =>
      obtain ⟨hcc, hyy⟩ := List.cons.inj h
      exact ⟨rfl, hcc, hyy⟩
    | cons b x' =>
      obtain ⟨rfl, -⟩ := List.cons.inj h
      rw [hx' c List.mem_cons_self] at hc
      cases hc
  | cons a x ih =>
    cases x' with
    | nil =>
      obtain ⟨rfl, -⟩ := List.cons.inj h
      rw [hx a List.mem_cons_self] at hc'
      cases hc'
    | cons b x' =>
      obtain ⟨rfl, htail⟩ := List.cons.inj h
      obtain ⟨rfl, hcc, hyy⟩ := ih (fun c hc => hx c (List.mem_cons_of_mem _ hc))
        (fun c hc => hx' c (List.mem_cons_of_mem _ hc)) htail
      exact ⟨rfl, hcc, hyy⟩

/-- No text begins with words of both languages. -/
def Apart (l l' : Language α) : Prop :=
  ∀ w ∈ l, ∀ w' ∈ l', ∀ t t', w ++ t ≠ w' ++ t'

open Pattern

variable {p q : α → Bool} {l l' : Language α}

theorem Apart.mono {k k' : Language α} (h : Apart l l') (hk : ∀ w ∈ k, w ∈ l)
    (hk' : ∀ w ∈ k', w ∈ l') : Apart k k' :=
  fun w hw w' hw' => h w (hk w hw) w' (hk' w' hw')

theorem Apart.of_starts (h : Starts p l) (h' : Starts (fun a => !p a) l') : Apart l l' := by
  intro w hw w' hw' t t' heq
  obtain ⟨a, x, rfl, ha⟩ := h w hw
  obtain ⟨a', x', rfl, ha'⟩ := h' w' hw'
  obtain ⟨rfl, -⟩ := List.cons.inj heq
  simp [ha] at ha'

theorem PrefixFree.add (h : PrefixFree l) (h' : PrefixFree l') (hapart : Apart l l') :
    PrefixFree (l + l') := by
  intro w hw w' hw' t t' heq
  rcases hw with hw | hw <;> rcases hw' with hw' | hw'
  · exact h w hw w' hw' t t' heq
  · exact absurd heq (hapart w hw w' hw' t t')
  · exact absurd heq.symm (hapart w' hw' w hw t' t)
  · exact h' w hw w' hw' t t' heq

theorem PrefixFree.mono {k : Language α} (h : PrefixFree l) (hk : ∀ w ∈ k, w ∈ l) : PrefixFree k :=
  fun w hw w' hw' => h w (hk w hw) w' (hk w' hw')

section Lit

variable [DecidableEq α] {text : List α}

theorem mem_lit_mul :
    w ∈ (lit text : Pattern α γ).language * l ↔ ∃ v ∈ l, w = text ++ v := by
  rw [Language.mem_mul]
  constructor
  · rintro ⟨u, hu, v, hv, rfl⟩
    exact ⟨v, hv, by rw [mem_lit.mp hu]⟩
  · rintro ⟨v, hv, rfl⟩
    exact ⟨text, mem_lit.mpr rfl, v, hv, rfl⟩

theorem PrefixFree.lit : PrefixFree (lit text : Pattern α γ).language := by
  intro w hw w' hw' t t' _
  rw [mem_lit.mp hw, mem_lit.mp hw']

theorem PrefixFree.lit_mul (h : PrefixFree l) :
    PrefixFree ((Pattern.lit text : Pattern α γ).language * l) := by
  intro w hw w' hw' t t' heq
  obtain ⟨v, hv, rfl⟩ := mem_lit_mul.mp hw
  obtain ⟨v', hv', rfl⟩ := mem_lit_mul.mp hw'
  rw [List.append_assoc, List.append_assoc] at heq
  rw [h v hv v' hv' t t' (List.append_cancel_left heq)]

theorem Apart.lit_mul (h : Apart l l') :
    Apart ((lit text : Pattern α γ).language * l) ((lit text : Pattern α γ).language * l') := by
  intro w hw w' hw' t t' heq
  obtain ⟨v, hv, rfl⟩ := mem_lit_mul.mp hw
  obtain ⟨v', hv', rfl⟩ := mem_lit_mul.mp hw'
  rw [List.append_assoc, List.append_assoc] at heq
  exact h v hv v' hv' t t' (List.append_cancel_left heq)

theorem Starts.lit (hc : p c = true) : Starts p (lit (c :: text) : Pattern α γ).language :=
  fun _ hw => ⟨c, text, mem_lit.mp hw, hc⟩

theorem Starts.lit_mul (hc : p c = true) :
    Starts p ((Pattern.lit (c :: text) : Pattern α γ).language * l) := by
  intro w hw
  obtain ⟨v, -, rfl⟩ := mem_lit_mul.mp hw
  exact ⟨c, text ++ v, rfl, hc⟩

end Lit

theorem Starts.add (h : Starts p l) (h' : Starts p l') : Starts p (l + l') :=
  fun w hw => hw.elim (h w) (h' w)

theorem Starts.some_mul (hqp : ∀ a, q a = true → p a = true) :
    Starts p ((some q : Pattern α γ).language * l) := by
  intro w hw
  obtain ⟨u, hu, v, -, rfl⟩ := Language.mem_mul.mp hw
  obtain ⟨hne, hall⟩ := mem_some.mp hu
  cases u with
  | nil => exact absurd rfl hne
  | cons a u => exact ⟨a, u ++ v, rfl, hqp a (hall a List.mem_cons_self)⟩

theorem Starts.many_mul (h : Starts p l) (hqp : ∀ a, q a = true → p a = true) :
    Starts p ((many q : Pattern α γ).language * l) := by
  intro w hw
  obtain ⟨u, hu, v, hv, rfl⟩ := Language.mem_mul.mp hw
  cases u with
  | nil => exact h v hv
  | cons a u => exact ⟨a, u ++ v, rfl, hqp a (hu a List.mem_cons_self)⟩

theorem many_append_unique {u u' v v' t t' : List α} (h : Starts (fun a => !p a) l)
    (h' : Starts (fun a => !p a) l') (hu : u ∈ (many p : Pattern α γ).language)
    (hu' : u' ∈ (many p : Pattern α γ).language) (hv : v ∈ l) (hv' : v' ∈ l')
    (heq : (u ++ v) ++ t = (u' ++ v') ++ t') : u = u' ∧ v ++ t = v' ++ t' := by
  obtain ⟨a, x, rfl, ha⟩ := h v hv
  obtain ⟨a', x', rfl, ha'⟩ := h' v' hv'
  rw [List.append_assoc, List.append_assoc, List.cons_append, List.cons_append] at heq
  obtain ⟨huu, rfl, hxx⟩ := span_unique hu (by simpa using ha) hu' (by simpa using ha') heq
  exact ⟨huu, by rw [List.cons_append, List.cons_append, hxx]⟩

theorem PrefixFree.many_mul (h : PrefixFree l) (hstarts : Starts (fun a => !p a) l) :
    PrefixFree ((many p : Pattern α γ).language * l) := by
  intro w hw w' hw' t t' heq
  obtain ⟨u, hu, v, hv, rfl⟩ := Language.mem_mul.mp hw
  obtain ⟨u', hu', v', hv', rfl⟩ := Language.mem_mul.mp hw'
  obtain ⟨rfl, heq'⟩ := many_append_unique hstarts hstarts hu hu' hv hv' heq
  rw [h v hv v' hv' t t' heq']

theorem Apart.many_mul (h : Apart l l') (hstarts : Starts (fun a => !p a) l)
    (hstarts' : Starts (fun a => !p a) l') :
    Apart ((many p : Pattern α γ).language * l) ((many p : Pattern α γ).language * l') := by
  intro w hw w' hw' t t' heq
  obtain ⟨u, hu, v, hv, rfl⟩ := Language.mem_mul.mp hw
  obtain ⟨u', hu', v', hv', rfl⟩ := Language.mem_mul.mp hw'
  exact h v hv v' hv' t t' (many_append_unique hstarts hstarts' hu hu' hv hv' heq).2

theorem some_subset_many (h : w ∈ (some p : Pattern α γ).language * l) :
    w ∈ (many p : Pattern α γ).language * l := by
  obtain ⟨u, hu, v, hv, rfl⟩ := Language.mem_mul.mp h
  exact Language.append_mem_mul (mem_some.mp hu).2 hv

theorem PrefixFree.some_mul (h : PrefixFree l) (hstarts : Starts (fun a => !p a) l) :
    PrefixFree ((some p : Pattern α γ).language * l) :=
  (h.many_mul hstarts).mono fun _ hw => some_subset_many hw

theorem Apart.some_mul (h : Apart l l') (hstarts : Starts (fun a => !p a) l)
    (hstarts' : Starts (fun a => !p a) l') :
    Apart ((some p : Pattern α γ).language * l) ((some p : Pattern α γ).language * l') :=
  (h.many_mul hstarts hstarts').mono (fun _ hw => some_subset_many hw)
    fun _ hw => some_subset_many hw

end Backtracking
