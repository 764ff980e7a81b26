import Mathlib.Data.List.TakeWhile
import Mathlib.Tactic

/-!
# Longest-match scanners

Scanners in the manner of flex: every start condition has a list of rules, the
rule with the longest match is applied and among equally long matches the one
that is listed first.  An action returns a token, skips the text or fails; it
may also change the start condition.

The patterns are those of the form `c1 c2 ... cₙ` or `c1 c2 ... cₙ t*` with
`1 ≤ n`, where `cᵢ` and `t` are character classes.
-/

namespace Flex

universe u v w x y

section Patterns

variable {α : Type u} {β : Type v}

/-- The pattern `first more1 ... moreₙ` or `first more1 ... moreₙ tail*`. -/
structure Pattern (α : Type u) where
  first : α → Bool
  more : List (α → Bool)
  tail : Option (α → Bool)

def Pattern.lit [DecidableEq α] (a : α) (text : List α) : Pattern α where
  first := fun d => decide (d = a)
  more := text.map fun c d => decide (d = c)
  tail := none

/-- The input after a sequence of characters of the given classes. -/
def matchHead : List (α → Bool) → List α → Option (List α)
  | [], s => some s
  | _ :: _, [] => none
  | c :: cs, a :: s => if c a then matchHead cs s else none

/-- Length of the longest match of a pattern at the beginning of the input. -/
def Pattern.matchLength (p : Pattern α) (s : List α) : Option Nat :=
  match matchHead (p.first :: p.more) s, p.tail with
  | none, _ => none
  | some _, none => some (p.more.length + 1)
  | some rest, some t => some (p.more.length + 1 + (rest.takeWhile t).length)

def Pattern.Matches (p : Pattern α) (text : List α) : Prop :=
  p.matchLength text = some text.length

instance (p : Pattern α) (text : List α) : Decidable (p.Matches text) :=
  inferInstanceAs (Decidable (_ = _))

/-- The rule to be applied, with the length of its match. -/
def longest : List (Pattern α × β) → List α → Option (Nat × β)
  | [], _ => none
  | (p, act) :: rules, s =>
    match p.matchLength s, longest rules s with
    | none, best => best
    | some n, none => some (n, act)
    | some n, some best => if best.1 ≤ n then some (n, act) else some best

theorem matchHead_eq_some {cs : List (α → Bool)} {s rest : List α}
    (h : matchHead cs s = some rest) :
    ∃ u, s = u ++ rest ∧ u.length = cs.length ∧
      ∀ s', matchHead cs (u ++ s') = some s' := by
  induction cs generalizing s with
  | nil =>
    simp only [matchHead, Option.some.injEq] at h
    subst h
    exact ⟨[], rfl, rfl, fun s' => rfl⟩
  | cons c cs ih =>
    cases s with
    | nil => simp [matchHead] at h
    | cons a s =>
      simp only [matchHead] at h
      split_ifs at h with hc
      obtain ⟨u, rfl, hlen, hu⟩ := ih h
      exact ⟨a :: u, rfl, by simp [hlen], fun s' => by simp [matchHead, hc, hu]⟩

/-- The beginning of the input that a pattern matches, and what may follow it. -/
theorem Pattern.matchLength_eq_some {p : Pattern α} {s : List α} {n : Nat}
    (h : p.matchLength s = some n) :
    0 < n ∧ n ≤ s.length ∧ p.Matches (s.take n) := by
  unfold Pattern.matchLength at h
  split at h
  · cases h
  · rename_i rest hhead htail
    cases h
    obtain ⟨u, rfl, hlen, hu⟩ := matchHead_eq_some hhead
    simp only [List.length_cons] at hlen
    refine ⟨by omega, by simp [hlen], ?_⟩
    have htake : (u ++ rest).take (p.more.length + 1) = u := by
      rw [← hlen, List.take_left]
    have hmatch := hu []
    rw [List.append_nil] at hmatch
    simp [Pattern.Matches, Pattern.matchLength, htake, hmatch, htail, hlen]
  · rename_i rest t hhead htail
    cases h
    obtain ⟨u, rfl, hlen, hu⟩ := matchHead_eq_some hhead
    simp only [List.length_cons] at hlen
    have hle := (List.takeWhile_prefix t (l := rest)).length_le
    have htake : (u ++ rest).take (p.more.length + 1 + (rest.takeWhile t).length) =
        u ++ rest.takeWhile t := by
      rw [List.take_append, hlen, List.take_of_length_le (by omega),
        Nat.add_sub_cancel_left]
      congr 1
      exact (List.prefix_iff_eq_take.mp (List.takeWhile_prefix t)).symm
    refine ⟨by omega, by rw [List.length_append]; omega, ?_⟩
    simp [Pattern.Matches, Pattern.matchLength, htake, hu, htail, hlen,
      List.takeWhile_idem]

theorem Pattern.Matches.append {p : Pattern α} {t : α → Bool} {text : List α}
    (h : p.Matches text) (ht : p.tail = some t)
    {rest : List α} (hrest : ∀ a ∈ rest.head?, t a = false) :
    p.matchLength (text ++ rest) = some text.length := by
  have hmatch := h
  unfold Pattern.Matches Pattern.matchLength at hmatch
  rw [ht] at hmatch
  split at hmatch
  · cases hmatch
  · rename_i heq
    cases heq
  · rename_i v t' hhead heq
    cases heq
    obtain ⟨u, rfl, hlen, hu⟩ := matchHead_eq_some hhead
    have hall : v.takeWhile t = v := by
      have hsum : p.more.length + 1 + (v.takeWhile t).length = u.length + v.length := by
        simpa using hmatch
      simp only [List.length_cons] at hlen
      exact (List.takeWhile_prefix t).eq_of_length (by omega)
    have hstop : (v ++ rest).takeWhile t = v := by
      rw [List.takeWhile_append, if_pos (congrArg List.length hall)]
      cases rest with
      | nil => simp
      | cons a rest => simp [hrest a (by simp)]
    simp only [List.length_cons] at hlen
    simp [Pattern.matchLength, List.append_assoc, hu, ht, hstop, hlen]

theorem Pattern.matchLength_of_first {p : Pattern α} {a : α} {s : List α} (h : p.first a = false) :
    p.matchLength (a :: s) = none := by
  simp [Pattern.matchLength, matchHead, h]

theorem matchHead_map_eq [DecidableEq α] {text s rest : List α}
    (h : matchHead (text.map fun c d => decide (d = c)) s = some rest) :
    s = text ++ rest := by
  induction text generalizing s with
  | nil => simpa [matchHead] using h
  | cons a text ih =>
    cases s with
    | nil => simp [matchHead] at h
    | cons b s =>
      simp only [List.map_cons, matchHead, decide_eq_true_eq] at h
      split_ifs at h with hb
      rw [hb, ih h, List.cons_append]

theorem Pattern.lit_matchLength [DecidableEq α] {a : α} {text s : List α} {n : Nat}
    (h : (Pattern.lit a text).matchLength s = some n) :
    n = text.length + 1 ∧ s.take n = a :: text := by
  unfold Pattern.matchLength at h
  split at h
  · cases h
  · rename_i rest hhead _
    have hs : s = (a :: text) ++ rest := matchHead_map_eq hhead
    have hn : n = text.length + 1 := by simpa [Pattern.lit] using h.symm
    refine ⟨hn, ?_⟩
    rw [hs, hn, ← List.length_cons, List.take_left]
  · rename_i heq
    cases heq

theorem longest_eq_some {rules : List (Pattern α × β)} {s : List α} {n : Nat} {act : β}
    (h : longest rules s = some (n, act)) :
    ∃ p, (p, act) ∈ rules ∧ p.matchLength s = some n := by
  induction rules with
  | nil => cases h
  | cons rule rules ih =>
    obtain ⟨p, act'⟩ := rule
    simp only [longest] at h
    split at h
    · obtain ⟨q, hq, hlen⟩ := ih h
      exact ⟨q, List.mem_cons_of_mem _ hq, hlen⟩
    · rename_i hlen _
      cases h
      exact ⟨p, List.mem_cons_self, hlen⟩
    · rename_i hlen hbest
      split_ifs at h
      · cases h
        exact ⟨p, List.mem_cons_self, hlen⟩
      · cases h
        obtain ⟨q, hq, hqlen⟩ := ih hbest
        exact ⟨q, List.mem_cons_of_mem _ hq, hqlen⟩

end Patterns

section Scanning

variable {α : Type u} {ρ : Type v} {σ : Type w} {τ : Type x} {ε : Type y}

/-- What an action does with the matched text. -/
inductive Outcome (σ : Type w) (τ : Type x) (ε : Type y) where
  | token (t : τ) (next : σ)
  | skip (next : σ)
  | error (what : ε)

/-- The rules of each start condition and the action performed on every match. -/
structure Scanner (α : Type u) (ρ : Type v) (σ : Type w) (τ : Type x) (ε : Type y) where
  rules : σ → List (Pattern α × (List α → Outcome σ τ ε))
  userAction : ρ → List α → ρ
  jammed : ε

/-- What a scanner returns, call by call, with the start condition after the call. -/
inductive Lexemes (ρ : Type v) (σ : Type w) (τ : Type x) (ε : Type y) where
  | eof (pos : ρ) (after : σ)
  | error (pos : ρ) (what : ε) (after : σ)
  | token (pos : ρ) (t : τ) (after : σ) (rest : Lexemes ρ σ τ ε)

/--
Scan the input after its first `k` characters, which belong to the previous
match.
-/
def Scanner.scan (L : Scanner α ρ σ τ ε) :
    (k : Nat) → σ → ρ → List α → Lexemes ρ σ τ ε
  | _, sc, pos, [] => .eof pos sc
  | k + 1, sc, pos, _ :: s => L.scan k sc pos s
  | 0, sc, pos, a :: s =>
    match longest (L.rules sc) (a :: s) with
    | none => .error pos L.jammed sc
    | some (n, act) =>
      let text := (a :: s).take n
      match act text with
      | .token t next => .token pos t next (L.scan (n - 1) next (L.userAction pos text) s)
      | .skip next => L.scan (n - 1) next (L.userAction pos text) s
      | .error what => .error pos what sc

theorem Scanner.scan_drop (L : Scanner α ρ σ τ ε) (k : Nat) (sc : σ) (pos : ρ) (s : List α) :
    L.scan k sc pos s = L.scan 0 sc pos (s.drop k) := by
  induction k generalizing s with
  | zero => rfl
  | succ k ih =>
    cases s with
    | nil => simp [Scanner.scan]
    | cons a s =>
      rw [Scanner.scan, ih, List.drop_succ_cons]

@[simp] theorem Scanner.scan_nil (L : Scanner α ρ σ τ ε) (sc : σ) (pos : ρ) :
    L.scan 0 sc pos [] = .eof pos sc := rfl

section OneMatch

variable (L : Scanner α ρ σ τ ε) {sc next : σ} {s : List α} {n : Nat}
variable {act : List α → Outcome σ τ ε}

section

variable (hlongest : longest (L.rules sc) s = some (n, act))
include hlongest

theorem Scanner.scan_drop_of_longest :
    ∃ a s', s = a :: s' ∧ ∀ sc' pos', L.scan (n - 1) sc' pos' s' =
      L.scan 0 sc' pos' (s.drop n) := by
  obtain ⟨p, -, hlen⟩ := longest_eq_some hlongest
  obtain ⟨hpos, hle, -⟩ := Pattern.matchLength_eq_some hlen
  cases s with
  | nil => simp at hle; omega
  | cons a s =>
    obtain ⟨m, rfl⟩ := Nat.exists_eq_succ_of_ne_zero hpos.ne'
    refine ⟨a, s, rfl, ?_⟩
    intro sc' pos'
    rw [Scanner.scan_drop]
    rfl

theorem Scanner.scan_token {t : τ}
    (hact : act (s.take n) = .token t next) (pos : ρ) :
    L.scan 0 sc pos s =
      .token pos t next (L.scan 0 next (L.userAction pos (s.take n)) (s.drop n)) := by
  obtain ⟨a, s', rfl, hdrop⟩ := L.scan_drop_of_longest hlongest
  rw [Scanner.scan]
  simp only [hlongest, hact, hdrop]

theorem Scanner.scan_skip
    (hact : act (s.take n) = .skip next) (pos : ρ) :
    L.scan 0 sc pos s =
      L.scan 0 next (L.userAction pos (s.take n)) (s.drop n) := by
  obtain ⟨a, s', rfl, hdrop⟩ := L.scan_drop_of_longest hlongest
  rw [Scanner.scan]
  simp only [hlongest, hact, hdrop]

theorem Scanner.scan_error {what : ε}
    (hact : act (s.take n) = .error what) (pos : ρ) :
    L.scan 0 sc pos s = .error pos what sc := by
  obtain ⟨a, s', rfl, hdrop⟩ := L.scan_drop_of_longest hlongest
  rw [Scanner.scan]
  simp only [hlongest, hact]

end

end OneMatch

/-- Every token satisfies what its rule guarantees about the matched text. -/
inductive Lexemes.All (P : τ → Prop) : Lexemes ρ σ τ ε → Prop
  | eof (pos : ρ) (after : σ) : Lexemes.All P (.eof pos after)
  | error (pos : ρ) (what : ε) (after : σ) : Lexemes.All P (.error pos what after)
  | token (pos : ρ) (t : τ) (after : σ) {rest : Lexemes ρ σ τ ε}
      (ht : P t) (hrest : Lexemes.All P rest) : Lexemes.All P (.token pos t after rest)

theorem Scanner.scan_all (L : Scanner α ρ σ τ ε) {P : τ → Prop}
    (hrule : ∀ sc p act, (p, act) ∈ L.rules sc → ∀ text, p.Matches text →
      ∀ t next, act text = .token t next → P t)
    (k : Nat) (sc : σ) (pos : ρ) (s : List α) :
    (L.scan k sc pos s).All P := by
  induction s generalizing k sc pos with
  | nil =>
    rw [Scanner.scan]
    exact .eof pos sc
  | cons a s ih =>
    cases k with
    | succ k => exact ih k sc pos
    | zero =>
      rw [Scanner.scan]
      split
      · exact .error _ _ _
      · rename_i n act hlongest
        obtain ⟨p, hp, hlen⟩ := longest_eq_some hlongest
        obtain ⟨-, -, hmatch⟩ := Pattern.matchLength_eq_some hlen
        simp only
        split
        · rename_i t next hact
          exact .token _ _ _ (hrule sc p act hp _ hmatch t next hact) (ih _ _ _)
        · exact ih _ _ _
        · exact .error _ _ _

end Scanning

end Flex
