import KedrAux.Lib.ErrorCodes
import KedrAux.Lib.Substring
import KedrAux.Lib.Trim

/-!
# Strings in character buffers

A buffer is the list of its characters and a pointer into it is an offset.  Accesses behind the
end of a buffer are errors.  What a buffer holds is said by prefixes: `t <+: buf.drop i` for the
characters `t` at the offset `i`.
-/

namespace CharBuffer

inductive Fault where
  | outOfBounds
  | assertion
  | endless
deriving DecidableEq

def assert (p : Prop) [Decidable p] : Except Fault Unit :=
  ErrorCodes.assertOr .assertion p

def load (buf : List UInt8) (i : Nat) : Except Fault UInt8 :=
  match buf[i]? with
  | some c => .ok c
  | none => .error .outOfBounds

def store (buf : List UInt8) (i : Nat) (c : UInt8) : Except Fault (List UInt8) :=
  if i < buf.length then .ok (buf.set i c) else .error .outOfBounds

/-- The characters up to the next zero. -/
def text (buf : List UInt8) (i : Nat) : List UInt8 :=
  (buf.drop i).takeWhile fun c => c ≠ 0

def strlen (buf : List UInt8) (i : Nat) : Except Fault Nat :=
  if 0 ∈ buf.drop i then .ok (text buf i).length else .error .outOfBounds

/-- The offset of the first `what` in a string. -/
def strstr (buf : List UInt8) (i : Nat) (what : List UInt8) : Except Fault (Option Nat) :=
  if 0 ∈ buf.drop i then
    .ok ((Substring.find what (text buf i)).map fun split => i + split.1.length)
  else .error .outOfBounds

/-- The offset of the first character `c`, which is not the terminating zero. -/
def strchr (buf : List UInt8) (i : Nat) (c : UInt8) : Except Fault (Option Nat) :=
  if 0 ∈ buf.drop i then
    .ok (if c ∈ text buf i then some (i + (text buf i).idxOf c) else none)
  else .error .outOfBounds

/-- `strcmp` finds no difference between a string and `what`. -/
def strEq (buf : List UInt8) (i : Nat) (what : List UInt8) : Except Fault Bool :=
  if 0 ∈ buf.drop i then .ok (decide (text buf i = what)) else .error .outOfBounds

def strdup (buf : List UInt8) (i : Nat) : Except Fault (List UInt8) :=
  if 0 ∈ buf.drop i then .ok (text buf i ++ [0]) else .error .outOfBounds

/-- A string that is shorter than `n` is followed by zeros. -/
def strncpy (dst : List UInt8) (d : Nat) (src : List UInt8) (i n : Nat) :
    Except Fault (List UInt8) :=
  let copied := (text src i).take n
  if d + n ≤ dst.length ∧ (n ≤ copied.length ∨ 0 ∈ src.drop i) then
    .ok (dst.take d ++ (copied ++ List.replicate (n - copied.length) 0) ++ dst.drop (d + n))
  else .error .outOfBounds

def strcpy (dst : List UInt8) (d : Nat) (src : List UInt8) (i : Nat) :
    Except Fault (List UInt8) :=
  strncpy dst d src i ((text src i).length + 1)

/-- The characters between two offsets. -/
def range (buf : List UInt8) (beg end_ : Nat) : List UInt8 :=
  (buf.drop beg).take (end_ - beg)

/-- The offset of the first character of a kind; the end of the range when there is none. -/
def findFirst (p : UInt8 → Bool) (buf : List UInt8) (beg end_ : Nat) : Except Fault Nat :=
  if ¬ beg ≤ end_ then .error .assertion
  else if end_ ≤ buf.length then .ok (beg + (range buf beg end_).findIdx p)
  else .error .outOfBounds

/-- The offset of the last character of a kind; the end of the range when there is none. -/
def findLast (p : UInt8 → Bool) (buf : List UInt8) (beg end_ : Nat) : Except Fault Nat :=
  if ¬ beg ≤ end_ then .error .assertion
  else if end_ ≤ buf.length then
    let i := (range buf beg end_).reverse.findIdx p
    .ok (if i < end_ - beg then end_ - 1 - i else end_)
  else .error .outOfBounds

/-- At most `n` characters, up to the end of the line; and what is left of a file. -/
def readLine : Nat → List UInt8 → List UInt8 × List UInt8
  | 0, file => ([], file)
  | _ + 1, [] => ([], [])
  | n + 1, c :: file =>
    if c = 10 then ([c], file) else (c :: (readLine n file).1, (readLine n file).2)

/-- The buffer with a line, and what is left of the file; `none` at the end of the file. -/
def fgets (buf : List UInt8) (i : Nat) (n : Int) (file : List UInt8) :
    Except Fault (Option (List UInt8 × List UInt8)) :=
  if n ≤ 0 ∨ (1 < n ∧ file = []) then .ok none
  else
    let line := (readLine (n - 1).toNat file).1
    if i + line.length < buf.length then
      .ok (some (buf.take i ++ (line ++ [0]) ++ buf.drop (i + line.length + 1),
        (readLine (n - 1).toNat file).2))
    else .error .outOfBounds

/-- A new buffer, with any contents. -/
def malloc (junk : Nat → UInt8) (n : Nat) : List UInt8 :=
  (List.range n).map junk

/-- What is in the buffer stays there, as far as it fits. -/
def realloc (junk : Nat → UInt8) (buf : List UInt8) (n : Nat) : List UInt8 :=
  buf.take n ++ malloc junk (n - buf.length)

variable {buf dst src out seg t : List UInt8} {c : UInt8} {i n : Nat}

@[simp] theorem assert_of {p : Prop} [Decidable p] (h : p) : assert p = .ok () :=
  if_pos h

@[simp] theorem length_malloc (junk : Nat → UInt8) (n : Nat) : (malloc junk n).length = n := by
  rw [malloc, List.length_map, List.length_range]

theorem length_realloc (junk : Nat → UInt8) (buf : List UInt8) (n : Nat) :
    (realloc junk buf n).length = n := by
  rw [realloc, List.length_append, List.length_take, length_malloc]
  omega

theorem at_append (h : seg ++ t <+: buf.drop i) : t <+: buf.drop (i + seg.length) := by
  rw [← List.drop_drop]
  obtain ⟨rest, hrest⟩ := h
  rw [← hrest, List.append_assoc, List.drop_left]
  exact List.prefix_append t rest

theorem at_cons (h : c :: t <+: buf.drop i) : t <+: buf.drop (i + 1) :=
  at_append (show [c] ++ t <+: buf.drop i from h)

theorem load_of_at (h : c :: t <+: buf.drop i) : load buf i = .ok c := by
  obtain ⟨rest, hrest⟩ := h
  have hget : buf[i]? = some c := by
    rw [← Nat.add_zero i, ← List.getElem?_drop, ← hrest]
    rfl
  rw [load, hget]

theorem text_of_at (h : t ++ [0] <+: buf.drop i) (ht : 0 ∉ t) : text buf i = t := by
  obtain ⟨rest, hrest⟩ := h
  have hall : ∀ c ∈ t, decide (c ≠ 0) = true := by
    intro c hc
    exact decide_eq_true fun hzero => ht (hzero ▸ hc)
  rw [text, ← hrest, List.append_assoc, List.takeWhile_append_of_pos hall]
  simp

theorem zero_mem_of_at (h : t ++ [0] <+: buf.drop i) : 0 ∈ buf.drop i :=
  h.subset (by simp)

theorem zero_notMem_text (buf : List UInt8) (i : Nat) : 0 ∉ text buf i := by
  intro h
  simpa using List.mem_takeWhile_imp h

theorem at_text (h : 0 ∈ buf.drop i) : text buf i ++ [0] <+: buf.drop i := by
  have hrest : (buf.drop i).dropWhile (fun c => decide (c ≠ 0)) ≠ [] := by
    intro hnil
    simpa using List.dropWhile_eq_nil_iff.mp hnil 0 h
  obtain ⟨c, rest, hcons⟩ := List.exists_cons_of_ne_nil hrest
  have hhead := Trim.head_dropWhile (a := c) (congrArg List.head? hcons)
  have hzero : c = 0 := not_not.mp (of_decide_eq_false hhead)
  refine ⟨rest, ?_⟩
  rw [List.append_assoc, List.singleton_append, ← hzero, ← hcons]
  exact List.takeWhile_append_dropWhile

section

variable (h : t ++ [0] <+: buf.drop i)
include h

theorem strlen_of_at (ht : 0 ∉ t) : strlen buf i = .ok t.length := by
  rw [strlen, if_pos (zero_mem_of_at h), text_of_at h ht]

theorem strstr_of_at (ht : 0 ∉ t) (what : List UInt8) :
    strstr buf i what =
      .ok ((Substring.find what t).map fun split => i + split.1.length) := by
  rw [strstr, if_pos (zero_mem_of_at h), text_of_at h ht]

theorem strchr_of_at (ht : 0 ∉ t) (c : UInt8) :
    strchr buf i c = .ok (if c ∈ t then some (i + t.idxOf c) else none) := by
  rw [strchr, if_pos (zero_mem_of_at h), text_of_at h ht]

theorem strEq_of_at (ht : 0 ∉ t) (what : List UInt8) :
    strEq buf i what = .ok (decide (t = what)) := by
  rw [strEq, if_pos (zero_mem_of_at h), text_of_at h ht]

theorem strdup_of_at (ht : 0 ∉ t) :
    strdup buf i = .ok (t ++ [0]) := by
  rw [strdup, if_pos (zero_mem_of_at h), text_of_at h ht]

end

theorem store_between (h : out ++ c :: t <+: buf) (x : UInt8) :
    ∃ buf', store buf out.length x = .ok buf' ∧ out ++ x :: t <+: buf' ∧
      buf'.length = buf.length := by
  obtain ⟨free, rfl⟩ := h
  refine ⟨out ++ x :: t ++ free, ?_, List.prefix_append _ _, by simp⟩
  rw [store, if_pos (by simp), List.append_assoc, List.append_assoc,
    List.set_append_right _ _ le_rfl, Nat.sub_self]
  rfl

theorem store_of_isPrefix (h : out <+: buf) (hroom : out.length < buf.length) (c : UInt8) :
    ∃ buf', store buf out.length c = .ok buf' ∧ out ++ [c] <+: buf' ∧
      buf'.length = buf.length := by
  refine ⟨buf.set out.length c, if_pos hroom, ?_, List.length_set⟩
  obtain ⟨free, rfl⟩ := h
  cases free with
  | nil => simp at hroom
  | cons x free =>
    rw [List.set_append_right _ _ le_rfl, Nat.sub_self, List.set_cons_zero]
    exact ⟨free, by simp⟩

theorem text_take_of_at (h : seg <+: src.drop i) (hseg : 0 ∉ seg) :
    (text src i).take seg.length = seg := by
  obtain ⟨rest, hrest⟩ := h
  have hall : ∀ c ∈ seg, decide (c ≠ 0) = true := by
    intro c hc
    exact decide_eq_true fun hzero => hseg (hzero ▸ hc)
  rw [text, ← hrest, List.takeWhile_append_of_pos hall, List.take_left]

theorem strncpy_of_isPrefix (h : out <+: dst) (hsrc : seg <+: src.drop i) (hseg : 0 ∉ seg)
    (hroom : out.length + seg.length ≤ dst.length) :
    ∃ dst', strncpy dst out.length src i seg.length = .ok dst' ∧ out ++ seg <+: dst' ∧
      dst'.length = dst.length := by
  have hcopied := text_take_of_at hsrc hseg
  refine ⟨out ++ seg ++ dst.drop (out.length + seg.length), ?_, List.prefix_append _ _, ?_⟩
  · rw [strncpy]
    simp only [hcopied, Nat.sub_self, List.replicate_zero, List.append_nil]
    rw [if_pos ⟨hroom, Or.inl le_rfl⟩, ← List.prefix_iff_eq_take.mp h]
  · simp only [List.length_append, List.length_drop]
    omega

theorem strncpy_string_of_isPrefix (h : out <+: dst) (hsrc : t ++ [0] <+: src.drop i) (ht : 0 ∉ t)
    (hroom : out.length + t.length < dst.length) :
    ∃ dst', strncpy dst out.length src i (t.length + 1) = .ok dst' ∧
      out ++ (t ++ [0]) <+: dst' ∧ dst'.length = dst.length := by
  have htext := text_of_at hsrc ht
  have hcopied : (text src i).take (t.length + 1) = t := by
    rw [htext, List.take_of_length_le (Nat.le_succ _)]
  refine ⟨out ++ (t ++ [0]) ++ dst.drop (out.length + (t.length + 1)), ?_,
    List.prefix_append _ _, ?_⟩
  · rw [strncpy]
    simp only [hcopied, Nat.add_sub_cancel_left, List.replicate_one]
    rw [if_pos ⟨hroom, Or.inr (zero_mem_of_at hsrc)⟩, ← List.prefix_iff_eq_take.mp h]
  · simp only [List.length_append, List.length_drop, List.length_singleton]
    omega

theorem strcpy_of_isPrefix (h : out <+: dst) (hsrc : t ++ [0] <+: src.drop i) (ht : 0 ∉ t)
    (hroom : out.length + t.length < dst.length) :
    ∃ dst', strcpy dst out.length src i = .ok dst' ∧
      out ++ (t ++ [0]) <+: dst' ∧ dst'.length = dst.length := by
  rw [strcpy, text_of_at hsrc ht]
  exact strncpy_string_of_isPrefix h hsrc ht hroom

theorem prefix_of_at (h : t <+: buf.drop i) : buf.take i ++ t <+: buf := by
  conv_rhs => rw [← List.take_append_drop i buf]
  exact (List.prefix_append_right_inj _).mpr h

theorem at_of_isPrefix (h : out ++ t <+: buf) : t <+: buf.drop out.length := by
  have hat : t <+: buf.drop (0 + out.length) := at_append (by rwa [List.drop_zero])
  rwa [Nat.zero_add] at hat

variable {l line tail : List UInt8}

theorem range_of_at (h : l <+: buf.drop i) : range buf i (i + l.length) = l := by
  rw [range, Nat.add_sub_cancel_left]
  exact (List.prefix_iff_eq_take.mp h).symm

theorem length_le_of_at (h : l <+: buf.drop i) (hi : i ≤ buf.length) :
    i + l.length ≤ buf.length := by
  have hle := h.length_le
  rw [List.length_drop] at hle
  omega

variable {p : UInt8 → Bool} {l r : List UInt8}

theorem findFirst_of_at (h : l ++ r <+: buf.drop i) (hi : i ≤ buf.length)
    (hl : ∀ c ∈ l, p c = false) (hr : ∀ c, r.head? = some c → p c = true) :
    findFirst p buf i (i + (l ++ r).length) = .ok (i + l.length) := by
  have hidx : (l ++ r).findIdx p = l.length := by
    rw [List.findIdx_append, List.findIdx_eq_length_of_false hl, if_neg (lt_irrefl _)]
    cases r with
    | nil => simp
    | cons c r => simp [List.findIdx_cons, hr c rfl]
  rw [findFirst, if_neg (not_not.mpr (Nat.le_add_right i _)), if_pos (length_le_of_at h hi),
    range_of_at h, hidx]

theorem findFirst_of_none (h : l <+: buf.drop i) (hi : i ≤ buf.length)
    (hl : ∀ c ∈ l, p c = false) :
    findFirst p buf i (i + l.length) = .ok (i + l.length) := by
  have hat : l ++ [] <+: buf.drop i := by rwa [List.append_nil]
  have hfirst := findFirst_of_at hat hi hl (by simp)
  rwa [List.append_nil] at hfirst

theorem findLast_of_at {c : UInt8} (h : l ++ c :: r <+: buf.drop i) (hi : i ≤ buf.length)
    (hc : p c = true) (hr : ∀ c ∈ r, p c = false) :
    findLast p buf i (i + (l ++ c :: r).length) = .ok (i + l.length) := by
  have hidx : (l ++ c :: r).reverse.findIdx p = r.length := by
    have hr' : ∀ c ∈ r.reverse, p c = false := fun c hmem => hr c (List.mem_reverse.mp hmem)
    rw [List.reverse_append, List.reverse_cons, List.append_assoc, List.findIdx_append,
      List.findIdx_eq_length_of_false hr', if_neg (lt_irrefl _)]
    simp [List.findIdx_cons, hc]
  have hlt : r.length < i + (l ++ c :: r).length - i := by
    rw [List.length_append, List.length_cons]
    omega
  rw [findLast, if_neg (not_not.mpr (Nat.le_add_right i _)), if_pos (length_le_of_at h hi),
    range_of_at h]
  simp only [hidx, if_pos hlt]
  congr 1
  rw [List.length_append, List.length_cons]
  omega

theorem findLast_of_none (h : r <+: buf.drop i) (hi : i ≤ buf.length)
    (hr : ∀ c ∈ r, p c = false) :
    findLast p buf i (i + r.length) = .ok (i + r.length) := by
  have hr' : ∀ c ∈ r.reverse, p c = false := fun c hmem => hr c (List.mem_reverse.mp hmem)
  have hidx := List.findIdx_eq_length_of_false hr'
  rw [findLast, if_neg (not_not.mpr (Nat.le_add_right i _)), if_pos (length_le_of_at h hi),
    range_of_at h]
  simp [hidx]

theorem readLine_of_tail (hline : 10 ∉ line) (htail : tail = [] ∨ tail.head? = some 10)
    (hn : line.length < n) :
    readLine n (line ++ tail) = (line ++ tail.take 1, tail.drop 1) := by
  induction line generalizing n with
  | nil =>
    obtain ⟨n, rfl⟩ := Nat.exists_eq_add_of_le' (Nat.one_le_of_lt hn)
    cases tail with
    | nil => rfl
    | cons c tail =>
      have hc : c = 10 := by simpa using htail
      subst hc
      rfl
  | cons c line ih =>
    rw [List.mem_cons, not_or] at hline
    obtain ⟨n, rfl⟩ := Nat.exists_eq_add_of_le' (Nat.one_le_of_lt hn)
    have hrest := ih hline.2 (Nat.lt_of_succ_lt_succ hn)
    rw [List.cons_append, readLine, if_neg (Ne.symm hline.1), hrest]
    rfl

theorem fgets_of_isPrefix {n : Int} (h : out <+: buf) (hline : 10 ∉ line)
    (htail : tail = [] ∨ tail.head? = some 10) (hfile : line ++ tail ≠ [])
    (hn : line.length + 1 < n) (hroom : out.length + n ≤ buf.length) :
    ∃ buf', fgets buf out.length n (line ++ tail) = .ok (some (buf', tail.drop 1)) ∧
      out ++ (line ++ tail.take 1 ++ [0]) <+: buf' ∧ buf'.length = buf.length := by
  have hread := readLine_of_tail (n := (n - 1).toNat) hline htail (by omega)
  have hlength : (line ++ tail.take 1).length ≤ line.length + 1 := by
    rw [List.length_append, List.length_take]
    omega
  have hfits : out.length + (line ++ tail.take 1).length < buf.length := by omega
  refine ⟨out ++ (line ++ tail.take 1 ++ [0]) ++
    buf.drop (out.length + (line ++ tail.take 1).length + 1), ?_, List.prefix_append _ _, ?_⟩
  · rw [fgets, if_neg (by rintro (hle | ⟨-, hnil⟩); exacts [by omega, hfile hnil])]
    simp only [hread]
    rw [if_pos hfits, ← List.prefix_iff_eq_take.mp h]
  · simp only [List.length_append, List.length_drop, List.length_singleton] at hfits ⊢
    omega

end CharBuffer
