import KedrAux.MemRw.Blocks

/-!
# The rules for code blocks

The blocks of a function tile its code, begin and end between instructions, and keep jumps out of
the function and backward jumps apart from other instructions.
-/

namespace KedrAux
namespace MemRw
namespace Blocks

open Tiling

variable (target : Target) (func : Function)

/-- The instructions that start before the zeros at the end of the function. -/
def Function.insns : List Insn :=
  insnsFrom Insn.length target.decode (skipZeros target.byte func.addr func.size) func.addr
    (func.addr + skipZeros target.byte func.addr func.size)

def Function.starts : List Nat := (func.insns target).map Insn.kaddr

def Function.codeEnd : Nat := lastEnd Insn.length Insn.kaddr func.addr (func.insns target)

/-- The instruction goes back within the function. -/
def Function.IsBackward (insn : Insn) : Prop :=
  func.addr ≤ insnJumpsTo target.arch insn ∧ insnJumpsTo target.arch insn < insn.kaddr

/-- The instruction leaves the function, or it is not known where it goes. -/
def Function.Leaves (insn : Insn) : Prop :=
  insnJumpsTo target.arch insn = Arch.minusOne target.arch ∨
    (insnJumpsTo target.arch insn ≠ 0 ∧
      (insnJumpsTo target.arch insn < func.addr ∨
        func.codeEnd target ≤ insnJumpsTo target.arch insn))

/-- A decodable sequence of instructions; jumps inside of the function hit instructions. -/
structure Function.Decodable : Prop where
  kaddr : ∀ a, (target.decode a).kaddr = a
  addr : func.addr ≠ 0
  notZeros : skipZeros target.byte func.addr func.size ≠ 0
  length : ∀ insn ∈ func.insns target, insn.length ≠ 0
  small : func.codeEnd target < func.addr + 2 ^ 26
  fits : func.codeEnd target < 2 ^ target.arch.bits
  direct : ∀ insn ∈ func.insns target, func.addr ≤ insnJumpsTo target.arch insn →
    insnJumpsTo target.arch insn < func.codeEnd target →
      insnJumpsTo target.arch insn ∈ func.starts target
  table : ∀ insn ∈ func.insns target, isTableJump insn = true →
    ∀ i < jtableCount target func.addr (func.codeEnd target) insn,
      target.long (jtableAddr target insn + i * target.arch.sizeofLong) ∈ func.starts target

structure Function.Split (func' : Function) : Prop where
  addr : func'.addr = func.addr
  size : func'.addr + func'.size = func.codeEnd target
  partition : ∃ blocks, func'.blocks = blocks.reverse ++ func.blocks ∧
    Tiles CodeBlock.addr CodeBlock.size blocks func.addr (func.codeEnd target) ∧
    (∀ block ∈ blocks, block.addr ∈ func.starts target ∧
      (block.addr + block.size ∈ func.starts target ∨
        block.addr + block.size = func.codeEnd target)) ∧
    (∀ insn ∈ func.insns target, func.IsBackward target insn →
      ∃ block ∈ blocks, block.addr = insnJumpsTo target.arch insn) ∧
    (∀ insn ∈ func.insns target, isTableJump insn = true →
      ∀ jaddr ∈ jtableElems target func.addr (func.codeEnd target) insn,
        ∃ block ∈ blocks, block.addr = jaddr) ∧
    ∀ insn ∈ func.insns target, func.Leaves target insn ∨ func.IsBackward target insn →
      ∃ block ∈ blocks, block.addr = insn.kaddr ∧ block.size = insn.length

section Tables

variable {target} {func}

variable {funcStart e e' : Nat} {insn : Insn}

theorem countElems_congr {endAddr n pos : Nat} (hle : e ≤ e')
    (h : ∀ i < countElems target funcStart e' endAddr n pos,
      target.long (pos + i * target.arch.sizeofLong) < e) :
    countElems target funcStart e endAddr n pos = countElems target funcStart e' endAddr n pos := by
  induction n generalizing pos with
  | zero => rfl
  | succ n ih =>
    rw [countElems, countElems]
    by_cases hpos : pos ≤ endAddr
    · rw [if_pos hpos, if_pos hpos]
      by_cases hout : target.long pos < funcStart ∨ target.long pos ≥ e'
      · rw [if_pos hout, if_pos (by omega)]
      · rw [countElems, if_pos hpos, if_neg hout] at h
        have hfirst := h 0 (Nat.succ_pos _)
        rw [Nat.zero_mul, Nat.add_zero] at hfirst
        rw [if_neg hout, if_neg (by omega), ih]
        intro i hi
        have hnext := h (i + 1) (Nat.succ_lt_succ hi)
        rwa [Nat.add_assoc, ← Nat.one_mul target.arch.sizeofLong, ← Nat.mul_assoc, ← Nat.add_mul,
          Nat.mul_one, Nat.add_comm 1 i]
    · rw [if_neg hpos, if_neg hpos]

theorem jtableCount_congr (hle : e ≤ e') (h : ∀ i < jtableCount target funcStart e' insn,
      target.long (jtableAddr target insn + i * target.arch.sizeofLong) < e) :
    jtableCount target funcStart e insn = jtableCount target funcStart e' insn := by
  rw [jtableCount, jtableCount]
  rw [jtableCount] at h
  cases hend : jtableEnd target insn with
  | none => rfl
  | some endAddr =>
    rw [hend] at h
    exact countElems_congr hle h

theorem mem_jtableElems {funcEnd jaddr : Nat}
    (h : jaddr ∈ jtableElems target funcStart funcEnd insn) :
    ∃ i < jtableCount target funcStart funcEnd insn,
      target.long (jtableAddr target insn + i * target.arch.sizeofLong) = jaddr := by
  obtain ⟨i, hi, rfl⟩ := List.mem_map.mp h
  exact ⟨i, Nat.lt_of_lt_of_le (List.mem_range.mp hi) (Nat.mod_le _ _), rfl⟩

end Tables

section Offsets

variable {target} {func} {s : Bounds} {insn : Insn}

def Function.offsetsOf (target : Target) (func : Function) (insn : Insn) : List Nat :=
  let dest := insnJumpsTo target.arch insn
  let own := [insn.kaddr - func.addr, insn.kaddr - func.addr + insn.length]
  if dest = 0 then []
  else if dest < func.addr ∨ dest ≥ func.codeEnd target then
    own ++ if isTableJump insn then
      (jtableElems target func.addr (func.codeEnd target) insn).map (· - func.addr) else []
  else if dest < insn.kaddr then (dest - func.addr) :: own
  else []

theorem Function.Decodable.tiles (h : func.Decodable target) :
    Tiles Insn.kaddr Insn.length (func.insns target) func.addr (func.codeEnd target) ∧
      func.addr + skipZeros target.byte func.addr func.size ≤ func.codeEnd target ∧
      ∀ insn ∈ func.insns target,
        insn.kaddr < func.addr + skipZeros target.byte func.addr func.size := by
  have hpos := Nat.pos_of_ne_zero h.notZeros
  obtain ⟨e, hle, htiles, hstarts⟩ :=
    insnsFrom_tiles h.kaddr (le_refl (func.addr + skipZeros target.byte func.addr func.size))
      (by omega) h.length
  have hend : func.codeEnd target = e := lastEnd_eq htiles
  rw [hend]
  exact ⟨htiles, hle, hstarts⟩

theorem Function.Decodable.start_lt (h : func.Decodable target) {a : Nat}
    (ha : a ∈ func.starts target) :
    a < func.addr + skipZeros target.byte func.addr func.size := by
  obtain ⟨insn, hinsn, rfl⟩ := List.mem_map.mp ha
  exact h.tiles.2.2 insn hinsn

theorem Function.Decodable.bounds (h : func.Decodable target) (hinsn : insn ∈ func.insns target) :
    func.addr ≤ insn.kaddr ∧ 0 < insn.length ∧ insn.kaddr + insn.length ≤ func.codeEnd target :=
  h.tiles.1.mem_bounds hinsn

/-- The code of the function while it is walked: at least up to the zeros. -/
structure Function.InWalk (target : Target) (func : Function) (s : Bounds) : Prop where
  zeros : skipZeros target.byte func.addr func.size ≤ s.size
  size : func.addr + s.size ≤ func.codeEnd target

theorem Function.Decodable.jtableElems_eq (h : func.Decodable target)
    (hinsn : insn ∈ func.insns target) (htable : isTableJump insn = true)
    (hs : func.InWalk target s) :
    jtableElems target func.addr (func.addr + s.size) insn =
      jtableElems target func.addr (func.codeEnd target) insn := by
  have hcount : jtableCount target func.addr (func.addr + s.size) insn =
      jtableCount target func.addr (func.codeEnd target) insn := by
    refine jtableCount_congr hs.size fun i hi => ?_
    have hstart := h.start_lt (h.table insn hinsn htable i hi)
    have hzeros := hs.zeros
    omega
  rw [jtableElems, jtableElems, jtableNum, jtableNum, hcount]

theorem handleJmpNearIndirect_eq (h : func.Decodable target) (hinsn : insn ∈ func.insns target)
    (htable : isTableJump insn = true) (hs : func.InWalk target s) :
    (handleJmpNearIndirect target func.addr insn s).blockOffsets = s.blockOffsets ++
        (jtableElems target func.addr (func.codeEnd target) insn).map (· - func.addr) ∧
      (handleJmpNearIndirect target func.addr insn s).size = s.size := by
  have helems := h.jtableElems_eq hinsn htable hs
  rw [handleJmpNearIndirect]
  cases hend : jtableEnd target insn with
  | none =>
    have hnil : jtableElems target func.addr (func.codeEnd target) insn = [] := by
      rw [jtableElems, jtableNum, jtableCount, hend]
      rfl
    rw [hnil]
    exact ⟨(List.append_nil _).symm, rfl⟩
  | some endAddr =>
    simp only [helems, and_true]
    congr 1
    refine List.map_congr_left fun jaddr hjaddr => Nat.mod_eq_of_lt ?_
    obtain ⟨i, hi, rfl⟩ := mem_jtableElems hjaddr
    have hstart := h.start_lt (h.table insn hinsn htable i hi)
    have hzeros := h.tiles.2.1
    have hsmall := h.small
    omega

theorem detectBlockBounds_eq (h : func.Decodable target) (hinsn : insn ∈ func.insns target)
    (hs : func.InWalk target s) :
    (detectBlockBounds target func.addr s insn).size =
        max s.size (insn.kaddr + insn.length - func.addr) ∧
      (detectBlockBounds target func.addr s insn).blockOffsets =
        s.blockOffsets ++ func.offsetsOf target insn := by
  obtain ⟨hk, hlen, hend⟩ := h.bounds hinsn
  have hsmall := h.small
  obtain ⟨hzeros, hsize⟩ := hs
  -- the function is enlarged
  obtain ⟨s1, hs1, hs1size, hs1offsets⟩ : ∃ s1 : Bounds,
      (if insn.kaddr + insn.length - func.addr > s.size then
        { s with size := insn.kaddr + insn.length - func.addr } else s) = s1 ∧
      s1.size = max s.size (insn.kaddr + insn.length - func.addr) ∧
      s1.blockOffsets = s.blockOffsets := by
    refine ⟨_, rfl, ?_, ?_⟩
    · split_ifs with hgt
      · exact (max_eq_right (Nat.le_of_lt hgt)).symm
      · exact (max_eq_left (not_lt.mp hgt)).symm
    · split_ifs <;> rfl
  have hwalk1 : func.InWalk target s1 := ⟨by omega, by omega⟩
  have hoffset : (insn.kaddr - func.addr) % 2 ^ 32 = insn.kaddr - func.addr :=
    Nat.mod_eq_of_lt (by omega)
  have hafter : (insn.kaddr - func.addr + insn.length) % 2 ^ 32 =
      insn.kaddr - func.addr + insn.length := Nat.mod_eq_of_lt (by omega)
  -- jumps into the function hit instructions before the zeros
  have hinside : func.addr ≤ insnJumpsTo target.arch insn →
      insnJumpsTo target.arch insn < func.codeEnd target →
        insnJumpsTo target.arch insn < func.addr + s1.size := by
    intro hge hlt
    have hstart := h.start_lt (h.direct insn hinsn hge hlt)
    omega
  simp only [detectBlockBounds, hs1, hoffset, hafter, Function.offsetsOf]
  by_cases hzero : insnJumpsTo target.arch insn = 0
  · rw [if_pos hzero, if_pos hzero, List.append_nil]
    exact ⟨hs1size, hs1offsets⟩
  rw [if_neg hzero, if_neg hzero]
  by_cases hout : insnJumpsTo target.arch insn < func.addr ∨
      insnJumpsTo target.arch insn ≥ func.codeEnd target
  · have hout' : insnJumpsTo target.arch insn < func.addr ∨
        insnJumpsTo target.arch insn ≥ func.addr + s1.size := by
      have hle := hwalk1.size
      omega
    rw [if_pos hout, if_pos hout']
    cases htable : isTableJump insn with
    | false =>
      simp only [Bool.false_eq_true, if_false, List.append_nil, hs1offsets]
      exact ⟨hs1size, trivial⟩
    | true =>
      obtain ⟨hhandle, hhandleSize⟩ := handleJmpNearIndirect_eq h hinsn htable
        (show func.InWalk target { s1 with blockOffsets := s1.blockOffsets ++
          [insn.kaddr - func.addr, insn.kaddr - func.addr + insn.length] } from
            ⟨hwalk1.zeros, hwalk1.size⟩)
      simp only [if_true]
      refine ⟨hhandleSize.trans hs1size, hhandle.trans ?_⟩
      simp only [hs1offsets, List.append_assoc]
  · have hout' : ¬ (insnJumpsTo target.arch insn < func.addr ∨
        insnJumpsTo target.arch insn ≥ func.addr + s1.size) := by
      omega
    have hdest : (insnJumpsTo target.arch insn - func.addr) % 2 ^ 32 =
        insnJumpsTo target.arch insn - func.addr := Nat.mod_eq_of_lt (by omega)
    rw [if_neg hout, if_neg hout', hdest]
    split_ifs with hback
    · exact ⟨hs1size, by simp only [hs1offsets]⟩
    · rw [List.append_nil]
      exact ⟨hs1size, hs1offsets⟩

theorem foldl_detectBlockBounds (h : func.Decodable target) {insns : List Insn} {a : Nat}
    (hinsns : ∀ insn ∈ insns, insn ∈ func.insns target)
    (htiles : Tiles Insn.kaddr Insn.length insns a (func.codeEnd target)) (hs : func.InWalk target s)
    (ha : a ≤ func.addr + s.size) :
    (insns.foldl (detectBlockBounds target func.addr) s).size = func.codeEnd target - func.addr ∧
      (insns.foldl (detectBlockBounds target func.addr) s).blockOffsets =
        s.blockOffsets ++ insns.flatMap (func.offsetsOf target) := by
  induction insns generalizing s a with
  | nil =>
    have hend : a = func.codeEnd target := htiles
    have hsize := hs.size
    refine ⟨?_, (List.append_nil _).symm⟩
    rw [List.foldl_nil]
    omega
  | cons insn insns ih =>
    have hinsn := hinsns insn List.mem_cons_self
    obtain ⟨hk, hlen, hend⟩ := h.bounds hinsn
    obtain ⟨hsize, hoffsets⟩ := detectBlockBounds_eq h hinsn hs
    obtain ⟨hzeros, hle⟩ := hs
    obtain ⟨hstart, -, htail⟩ := htiles
    have hwalk : func.InWalk target (detectBlockBounds target func.addr s insn) :=
      ⟨by omega, by omega⟩
    obtain ⟨hsize', hoffsets'⟩ := ih (fun x hx => hinsns x (List.mem_cons_of_mem _ hx)) htail
      hwalk (by omega)
    rw [List.foldl_cons, List.flatMap_cons, hsize', hoffsets', hoffsets, List.append_assoc]
    exact ⟨rfl, rfl⟩

end Offsets

section Partition

theorem insnJumpsTo_isTableJump {arch : Arch} {insn : Insn} (h : isTableJump insn = true) :
    insnJumpsTo arch insn = Arch.minusOne arch := by
  simp only [isTableJump, Bool.and_eq_true, decide_eq_true_eq] at h
  obtain ⟨⟨⟨hopcode, hreg⟩, -⟩, -⟩ := h
  simp [insnJumpsTo, hopcode, hreg]

variable {target} {func} {insn : Insn}

variable {x a : Nat}

theorem Function.Decodable.mem_offsetsOf (h : func.Decodable target)
    (hinsn : insn ∈ func.insns target) (hx : x ∈ func.offsetsOf target insn) :
    func.addr + x ∈ func.starts target ∨ func.addr + x = func.codeEnd target := by
  obtain ⟨hk, -, hend⟩ := h.bounds hinsn
  have hmem : insn.kaddr ∈ func.starts target := List.mem_map_of_mem hinsn
  -- the offsets of the instruction itself
  have hown : ∀ y ∈ [insn.kaddr - func.addr, insn.kaddr - func.addr + insn.length],
      func.addr + y ∈ func.starts target ∨ func.addr + y = func.codeEnd target := by
    intro y hy
    rcases List.mem_cons.mp hy with rfl | hy
    · rw [Nat.add_sub_cancel' hk]
      exact Or.inl hmem
    · rw [List.mem_singleton.mp hy, ← Nat.add_assoc, Nat.add_sub_cancel' hk]
      exact h.tiles.1.end_mem hinsn
  rw [Function.offsetsOf] at hx
  split_ifs at hx with hzero hout htable hback
  · cases hx
  · rcases List.mem_append.mp hx with hx | hx
    · exact hown x hx
    · obtain ⟨jaddr, hjaddr, rfl⟩ := List.mem_map.mp hx
      obtain ⟨i, hi, rfl⟩ := mem_jtableElems hjaddr
      have hstart := h.table insn hinsn htable i hi
      obtain ⟨insn', hinsn', heq⟩ := List.mem_map.mp hstart
      have hge := (h.bounds hinsn').1
      rw [heq] at hge
      rw [Nat.add_sub_cancel' hge]
      exact Or.inl hstart
  · exact hown x (by simpa using hx)
  · have hdest := h.direct insn hinsn (by omega) (by omega)
    rcases List.mem_cons.mp hx with rfl | hx
    · rw [Nat.add_sub_cancel' (by omega)]
      exact Or.inl hdest
    · exact hown x hx
  · cases hx

def Function.sortedOffsets (target : Target) (func : Function) : List Nat :=
  ((func.insns target).flatMap (func.offsetsOf target) ++
    [func.codeEnd target - func.addr]).mergeSort fun a b => decide (a ≤ b)

theorem Function.mem_sortedOffsets :
    x ∈ func.sortedOffsets target ↔
      (∃ insn ∈ func.insns target, x ∈ func.offsetsOf target insn) ∨
        x = func.codeEnd target - func.addr := by
  rw [Function.sortedOffsets, List.mem_mergeSort, List.mem_append, List.mem_flatMap,
    List.mem_singleton]

theorem Function.sortedOffsets_pairwise : (0 :: func.sortedOffsets target).Pairwise (· ≤ ·) := by
  refine List.pairwise_cons.mpr ⟨fun x _ => Nat.zero_le x, ?_⟩
  have hsorted := @List.pairwise_mergeSort Nat (fun a b => decide (a ≤ b))
    (fun a b c hab hbc => by simp only [decide_eq_true_eq] at *; omega)
    (fun a b => by simp only [Bool.or_eq_true, decide_eq_true_eq]; omega)
    ((func.insns target).flatMap (func.offsetsOf target) ++ [func.codeEnd target - func.addr])
  exact hsorted.imp fun hab => of_decide_eq_true hab

section

variable (h : func.Decodable target)
include h

theorem Function.Decodable.sortedOffsets_mem
    (hx : x ∈ func.sortedOffsets target) :
    func.addr + x ∈ func.starts target ∨ func.addr + x = func.codeEnd target := by
  rcases Function.mem_sortedOffsets.mp hx with ⟨insn, hinsn, hx⟩ | rfl
  · exact h.mem_offsetsOf hinsn hx
  · have hle := h.tiles.1.le
    exact Or.inr (by omega)

theorem Function.Decodable.start_lt_codeEnd
    (ha : a ∈ func.starts target) : func.addr ≤ a ∧ a < func.codeEnd target := by
  obtain ⟨insn, hinsn, rfl⟩ := List.mem_map.mp ha
  obtain ⟨hk, hlen, hend⟩ := h.bounds hinsn
  exact ⟨hk, by omega⟩

theorem Function.Decodable.sortedOffsets_getLast :
    (0 :: func.sortedOffsets target).getLast (List.cons_ne_nil _ _) =
      func.codeEnd target - func.addr := by
  have hmem : func.codeEnd target - func.addr ∈ func.sortedOffsets target :=
    Function.mem_sortedOffsets.mpr (Or.inr rfl)
  have hle : ∀ x ∈ 0 :: func.sortedOffsets target, x ≤ func.codeEnd target - func.addr := by
    intro x hx
    rcases List.mem_cons.mp hx with rfl | hx
    · exact Nat.zero_le _
    · rcases h.sortedOffsets_mem hx with hstart | hend
      · have hlt := (h.start_lt_codeEnd hstart).2
        omega
      · omega
  refine Nat.le_antisymm (hle _ (List.getLast_mem _)) ?_
  exact Function.sortedOffsets_pairwise.rel_getLast (List.mem_cons_of_mem _ hmem)

theorem Function.Decodable.exists_block (ha : a ∈ func.starts target)
    (hmem : a - func.addr ∈ 0 :: func.sortedOffsets target) :
    ∃ block ∈ makeBlocks func.addr (func.sortedOffsets target), block.addr = a ∧
      ∀ y ∈ func.sortedOffsets target, a - func.addr < y → a - func.addr + block.size ≤ y := by
  obtain ⟨hge, hlt⟩ := h.start_lt_codeEnd ha
  obtain ⟨n, hn, hnext⟩ := exists_mem_cut Function.sortedOffsets_pairwise hmem (by
    rw [h.sortedOffsets_getLast]
    omega)
  exact ⟨⟨func.addr + (a - func.addr), n⟩, List.mem_map.mpr ⟨_, hn, rfl⟩,
    Nat.add_sub_cancel' hge, hnext⟩

theorem Function.Decodable.separate (hinsn : insn ∈ func.insns target)
    (hmem : insn.kaddr - func.addr ∈ func.sortedOffsets target)
    (hmem' : insn.kaddr - func.addr + insn.length ∈ func.sortedOffsets target) :
    ∃ block ∈ makeBlocks func.addr (func.sortedOffsets target),
      block.addr = insn.kaddr ∧ block.size = insn.length := by
  obtain ⟨hk, hlen, hend⟩ := h.bounds hinsn
  obtain ⟨block, hblock, haddr, hnext⟩ :=
    h.exists_block (List.mem_map_of_mem hinsn) (List.mem_cons_of_mem _ hmem)
  have hle := hnext _ hmem' (by omega)
  obtain ⟨r, hr, rfl⟩ := List.mem_map.mp hblock
  have hpos := (cut_tiles Function.sortedOffsets_pairwise).mem_bounds hr
  have hcut := (mem_cut Function.sortedOffsets_pairwise hr).2
  refine ⟨_, hblock, haddr, Nat.le_antisymm (by omega) ?_⟩
  -- no instruction starts inside of another one
  simp only at haddr hpos ⊢
  rcases h.sortedOffsets_mem hcut with hstart | hlast
  · obtain ⟨insn', hinsn', heq⟩ := List.mem_map.mp hstart
    have hinside := h.tiles.1.not_inside hinsn hinsn'
    omega
  · omega

end

theorem tiles_makeBlocks {addr a e : Nat} {l : List (Nat × Nat)}
    (h : Tiles Prod.fst Prod.snd l a e) :
    Tiles CodeBlock.addr CodeBlock.size (l.map fun r => ⟨addr + r.1, r.2⟩) (addr + a) (addr + e) := by
  induction l generalizing a with
  | nil => exact congrArg (addr + ·) h
  | cons r l ih =>
    obtain ⟨hstart, hpos, htail⟩ := h
    refine ⟨congrArg (addr + ·) hstart, hpos, ?_⟩
    rw [Nat.add_assoc]
    exact ih htail

theorem Function.Decodable.prepareBlocks_eq (h : func.Decodable target) :
    ∃ func', prepareBlocks target func = .ok func' ∧ func'.addr = func.addr ∧
      func'.size = func.codeEnd target - func.addr ∧
      func'.blocks = (makeBlocks func.addr (func.sortedOffsets target)).reverse ++ func.blocks := by
  obtain ⟨htiles, hzeros, -⟩ := h.tiles
  have hsmall := h.small
  have hpos := Nat.pos_of_ne_zero h.notZeros
  obtain ⟨hsize, hoffsets⟩ := @foldl_detectBlockBounds target func
    ⟨skipZeros target.byte func.addr func.size, [], func.jumpTables⟩ h _ func.addr
    (fun _ hinsn => hinsn) htiles ⟨le_refl _, hzeros⟩ (Nat.le_add_right _ _)
  have hwalk := doForEachInsn_eq (detectBlockBounds target func.addr)
    (⟨skipZeros target.byte func.addr func.size, [], func.jumpTables⟩ : Bounds) h.length
  rw [List.nil_append] at hoffsets
  rw [← Function.insns] at hwalk
  generalize (func.insns target).foldl (detectBlockBounds target func.addr)
    ⟨skipZeros target.byte func.addr func.size, [], func.jumpTables⟩ = s at hsize hoffsets hwalk
  have hsorted : (s.blockOffsets ++ [s.size % 2 ^ 32]).mergeSort (fun a b => decide (a ≤ b)) =
      func.sortedOffsets target := by
    rw [hsize, hoffsets, Nat.mod_eq_of_lt (by omega)]
    rfl
  have hnonzero : (func.sortedOffsets target).all (· = 0) ≠ true := by
    intro hall
    have hzero := List.all_eq_true.mp hall _ (Function.mem_sortedOffsets.mpr (Or.inr rfl))
    have hle := of_decide_eq_true hzero
    omega
  refine ⟨{ func with
    size := s.size
    blocks := (makeBlocks func.addr (func.sortedOffsets target)).reverse ++ func.blocks
    jumpTables := s.jumpTables }, ?_, rfl, hsize, rfl⟩
  simp only [prepareBlocks, if_neg h.notZeros, hwalk]
  show (if _ then _ else _) = _
  rw [hsorted, if_neg hnonzero]

/-- Jumps out of the function and backward jumps have both their offsets collected. -/
theorem Function.Decodable.own_offsets (h : func.Decodable target) (hinsn : insn ∈ func.insns target)
    (hjump : func.Leaves target insn ∨ func.IsBackward target insn) :
    insn.kaddr - func.addr ∈ func.offsetsOf target insn ∧
      insn.kaddr - func.addr + insn.length ∈ func.offsetsOf target insn := by
  obtain ⟨hk, hlen, hend⟩ := h.bounds hinsn
  have haddr := h.addr
  rw [Function.offsetsOf]
  rcases hjump with hleaves | ⟨hge, hlt⟩
  · have hout : insnJumpsTo target.arch insn ≠ 0 ∧ (insnJumpsTo target.arch insn < func.addr ∨
        insnJumpsTo target.arch insn ≥ func.codeEnd target) := by
      rcases hleaves with hminus | hleaves
      · have hfits := h.fits
        rw [hminus, Arch.minusOne]
        omega
      · exact hleaves
    simp [hout.1, hout.2]
  · have hzero : insnJumpsTo target.arch insn ≠ 0 := by omega
    have hout : ¬ (insnJumpsTo target.arch insn < func.addr ∨
        insnJumpsTo target.arch insn ≥ func.codeEnd target) := by omega
    simp only [if_neg hzero, if_neg hout, if_pos hlt]
    simp

/-- The blocks and the jumps between them follow the rules for every function that can be
decoded. -/
theorem prepareBlocks_split (h : func.Decodable target) :
    ∃ func', prepareBlocks target func = .ok func' ∧ func.Split target func' := by
  obtain ⟨func', hok, haddr, hsize, hblocks⟩ := h.prepareBlocks_eq
  have hcode := h.tiles.1.le
  have hsorted := @Function.sortedOffsets_pairwise target func
  have hfirst : func.addr ∈ func.starts target := by
    have htiles := h.tiles.1
    have hzeros := h.tiles.2.1
    have hpos := Nat.pos_of_ne_zero h.notZeros
    rw [Function.starts]
    cases hinsns : func.insns target with
    | nil =>
      rw [hinsns] at htiles
      have heq : func.addr = func.codeEnd target := htiles
      omega
    | cons insn insns =>
      rw [hinsns] at htiles
      rw [List.map_cons, htiles.1]
      exact List.mem_cons_self
  have htiles : Tiles CodeBlock.addr CodeBlock.size
      (makeBlocks func.addr (func.sortedOffsets target)) func.addr (func.codeEnd target) := by
    have hcut := @tiles_makeBlocks func.addr _ _ _ (cut_tiles hsorted)
    rwa [h.sortedOffsets_getLast, Nat.add_zero, Nat.add_sub_cancel' hcode] at hcut
  refine ⟨func', hok, haddr, by omega, _, hblocks, htiles, ?_, ?_, ?_, ?_⟩
  · intro block hblock
    obtain ⟨-, hpos, hle⟩ := htiles.mem_bounds hblock
    obtain ⟨r, hr, rfl⟩ := List.mem_map.mp hblock
    obtain ⟨hstart, hend⟩ := mem_cut hsorted hr
    simp only at hpos hle ⊢
    constructor
    · rcases List.mem_cons.mp hstart with hzero | hstart
      · rw [hzero, Nat.add_zero]
        exact hfirst
      · refine (h.sortedOffsets_mem hstart).resolve_right ?_
        omega
    · rw [Nat.add_assoc]
      exact h.sortedOffsets_mem hend
  · intro insn hinsn hback
    obtain ⟨hk, hlen, hend⟩ := h.bounds hinsn
    have hstart := h.direct insn hinsn hback.1 (by have := hback.2; omega)
    have hmem : insnJumpsTo target.arch insn - func.addr ∈ func.offsetsOf target insn := by
      have hne := h.addr
      obtain ⟨hge, hlt⟩ := hback
      simp only [Function.offsetsOf, if_neg (show insnJumpsTo target.arch insn ≠ 0 by omega),
        if_neg (show ¬ (insnJumpsTo target.arch insn < func.addr ∨
          insnJumpsTo target.arch insn ≥ func.codeEnd target) by omega), if_pos hlt]
      exact List.mem_cons_self
    obtain ⟨block, hblock, heq, -⟩ := h.exists_block hstart (List.mem_cons_of_mem _
      (Function.mem_sortedOffsets.mpr (Or.inl ⟨insn, hinsn, hmem⟩)))
    exact ⟨block, hblock, heq⟩
  · intro insn hinsn htable jaddr hjaddr
    obtain ⟨i, hi, heq⟩ := mem_jtableElems hjaddr
    have hstart := h.table insn hinsn htable i hi
    rw [heq] at hstart
    have hdest : insnJumpsTo target.arch insn = Arch.minusOne target.arch :=
      insnJumpsTo_isTableJump htable
    have hmem : jaddr - func.addr ∈ func.offsetsOf target insn := by
      have hfits := h.fits
      have hout : insnJumpsTo target.arch insn < func.addr ∨
          insnJumpsTo target.arch insn ≥ func.codeEnd target := by
        rw [hdest, Arch.minusOne]
        omega
      have hzero : insnJumpsTo target.arch insn ≠ 0 := by
        have haddr' := h.addr
        rw [hdest, Arch.minusOne]
        omega
      simp only [Function.offsetsOf, if_neg hzero, if_pos hout, htable, if_true]
      exact List.mem_append_right _ (List.mem_map.mpr ⟨jaddr, hjaddr, rfl⟩)
    obtain ⟨block, hblock, heq, -⟩ := h.exists_block hstart (List.mem_cons_of_mem _
      (Function.mem_sortedOffsets.mpr (Or.inl ⟨insn, hinsn, hmem⟩)))
    exact ⟨block, hblock, heq⟩
  · intro insn hinsn hjump
    obtain ⟨hmem, hmem'⟩ := h.own_offsets hinsn hjump
    exact h.separate hinsn (Function.mem_sortedOffsets.mpr (Or.inl ⟨insn, hinsn, hmem⟩))
      (Function.mem_sortedOffsets.mpr (Or.inl ⟨insn, hinsn, hmem'⟩))

end Partition

/-- A loop of `nop` and `jne`, and `ret` after it. -/
def loopTarget : Target where
  arch := .x86_64
  byte a := if a < 4100 then 0x90 else 0
  long _ := 0
  decode a :=
    ⟨a, if a = 4097 then 2 else 1, if a = 4097 then 0x75 else if a = 4099 then 0xc3 else 0x90, 0, 0,
      0xfd, -3, 0⟩
  mod := ⟨0, 0, 4096, 4096⟩

def loopFunction : Function := ⟨4096, 8, [], []⟩

/-- A function in which a conditional jump goes back. -/
theorem prepareBlocks_split_loop :
    loopFunction.Decodable loopTarget ∧
      ∃ func', prepareBlocks loopTarget loopFunction = .ok func' ∧
        loopFunction.Split loopTarget func' := by
  have h : loopFunction.Decodable loopTarget := by
    refine ⟨fun a => rfl, by decide, by decide, ?_, by decide, by decide, ?_, ?_⟩
    · decide
    · decide
    · intro insn hinsn htable
      have hnone : ∀ insn ∈ loopFunction.insns loopTarget, isTableJump insn = false := by decide
      rw [hnone insn hinsn] at htable
      cases htable
  exact ⟨h, prepareBlocks_split h⟩

end Blocks
end MemRw
end KedrAux
