import KedrAux.MemRw.CallInject

/-!
# Control flow of instrumented copies

A copy refers to the same addresses as the original outside of the function when its kind is
handled, and to copies of the same instructions inside when no instruction in between has changed
its length.
-/

namespace KedrAux
namespace MemRw
namespace CallInject

open ByteOrder LittleEndian Tiling

section References

variable {arch : Arch}

theorem kedrAddrFromOffset_lt (a n : Nat) (offset : Int) :
    kedrAddrFromOffset arch a n offset < 2 ^ arch.bits := by
  cases arch <;> simp only [kedrAddrFromOffset, Arch.bits] <;> omega

variable {dest n a : Nat} {offset : Int}

theorem kedrAddrFromOffset_kedrOffsetFromAddr (ha : a < 2 ^ arch.bits)
    (hlow : -2 ^ 31 ≤ (a : Int) - (dest + n)) (hhigh : (a : Int) - (dest + n) < 2 ^ 31) :
    kedrAddrFromOffset arch dest n (kedrOffsetFromAddr dest n a).toInt = a := by
  have hoffset : (kedrOffsetFromAddr dest n a).toInt = (a : Int) - (dest + n) := by
    rw [kedrOffsetFromAddr, BitVec.toInt_ofInt, Int.bmod_eq_of_le]
    · exact hlow
    · exact hhigh
  rw [hoffset, kedrAddrFromOffset]
  cases arch <;> simp only [Arch.bits] at ha ⊢ <;> omega

theorem kedrAddrFromOffset_eq_iff {place : Nat} (hplace : place < 2 ^ arch.bits)
    (hlow : -2 ^ 31 ≤ (place : Int) - dest - (kedrAddrFromOffset arch a n offset - a))
    (hhigh : (place : Int) - dest - (kedrAddrFromOffset arch a n offset - a) < 2 ^ 31) :
    kedrAddrFromOffset arch dest n offset = place ↔
      (place : Int) - dest = kedrAddrFromOffset arch a n offset - a := by
  simp only [kedrAddrFromOffset] at *
  cases arch <;> simp only [Arch.bits] at * <;> omega

theorem kedrAddrFromOffset_inj (ha : a < 2 ^ arch.bits) (hdest : dest < 2 ^ arch.bits)
    (h : kedrAddrFromOffset arch dest n offset = kedrAddrFromOffset arch a n offset) :
    dest = a := by
  simp only [kedrAddrFromOffset] at h
  cases arch <;> simp only [Arch.bits] at * <;> omega

theorem load_store_little (value : BitVec (8 * 4)) : load 4 .little (u32Bytes value) = value := by
  rw [u32Bytes, store, load, List.take_of_length_le (Nat.le_of_eq (length_bytes 4 value)),
    read_bytes]

theorem load_u32Bytes (before : List Byte) (value : BitVec (8 * 4)) :
    load 4 .little ((before ++ u32Bytes value).drop before.length) = value := by
  rw [List.drop_left, load_store_little]

theorem load_overwrite {code : List Byte} {offset : Nat} (value : BitVec (8 * 4))
    (h : offset + 4 ≤ code.length) :
    load 4 .little ((overwrite code offset (u32Bytes value)).drop offset) = value := by
  have hfield : Field (overwrite code offset (u32Bytes value)) offset (u32Bytes value) :=
    field_overwrite (by rw [u32Bytes, length_store]; exact h)
  rw [hfield.load .little (length_store .little value), load_store_little]

end References

def Insn.reference (arch : Arch) (insn : Insn) : Option Nat :=
  insn.operand.map (refersTo arch insn.kaddr insn.bytes)

def Copy.reference (arch : Arch) (copy : Copy) : Option Nat :=
  copy.emitted.operand.map (refersTo arch copy.dest copy.emitted.code)

/-- Direct jumps; calls are not among them. -/
def isJump (insn : Insn) : Bool :=
  insn.opcode = 0xe9 || isJccNear insn || isJmpShort insn || isJccShort insn || isJcxzOrLoop insn

/-- Instructions with a relative operand that are copied as they are. -/
def isPlain (insn : Insn) : Bool := isJccNear insn || isJcxzOrLoop insn

/-- The decoder has found the fields of the instruction. -/
structure Insn.Correct (arch : Arch) (insn : Insn) : Prop where
  length : insn.bytes.length = insn.length
  near : isCallOrJmpNear insn = true ∨ isJccNear insn = true →
    insn.immediateOffset + 4 ≤ insn.length ∧
      insn.immediate = (Operand.rel32 insn.immediateOffset).value insn.bytes
  short : isJmpShort insn = true ∨ isJccShort insn = true ∨ isJcxzOrLoop insn = true →
    insn.immediateByte.toInt = (Operand.rel8 insn.immediateOffset).value insn.bytes
  rip : insn.ripRelative = true →
    arch = .x86_64 ∧ insn.displacementOffset + 4 ≤ insn.length ∧
      insn.displacement = (Operand.rel32 insn.displacementOffset).value insn.bytes ∧
      isJump insn = false ∧ isCallOrJmpNear insn = false

variable (target : Target) (func : Function)

def Function.trimmed : Nat := skipZeros target.byte func.addr func.size

def Function.insns : List Insn :=
  insnsFrom (fun insn => insn.length) target.decode (func.trimmed target) func.addr
    (func.addr + func.trimmed target)

def Function.codeEnd : Nat :=
  lastEnd (fun insn : Insn => insn.length) (fun insn => insn.kaddr) func.addr (func.insns target)

def Function.inCode (a : Nat) : Bool := func.addr ≤ a && a < func.codeEnd target

def Function.emittedLength (insn : Insn) : Nat :=
  if isJmpShort insn && !func.inCode target (jumpAddr target.arch insn) then 5
  else if isJccShort insn && !func.inCode target (jumpAddr target.arch insn) then 6
  else insn.length

/-- Length of the code that replaces the instructions from one address to another. -/
def Function.emittedBetween (a b : Nat) : Nat :=
  (((func.insns target).filter fun insn => a ≤ insn.kaddr && insn.kaddr < b).map
    (func.emittedLength target)).sum

/-- The place for the copy of the instruction at the given address. -/
def Function.place (a : Nat) : Nat :=
  func.instrumentedAddr + (entryCallPattern target.arch).length +
    (((func.insns target).filter fun insn => insn.kaddr < a).map (func.emittedLength target)).sum

/-- A decoded function and a detour buffer, which are near each other and do not overlap. -/
structure Function.Relocatable : Prop where
  kaddr : ∀ a, (target.decode a).kaddr = a
  notZeros : func.trimmed target ≠ 0
  length : ∀ insn ∈ func.insns target, insn.length ≠ 0
  correct : ∀ insn ∈ func.insns target, insn.Correct target.arch
  small : func.codeEnd target < func.addr + 2 ^ 26
  fits : func.codeEnd target < 2 ^ target.arch.bits
  buffer : func.place target (func.codeEnd target) < 2 ^ target.arch.bits
  apart : func.codeEnd target ≤ func.instrumentedAddr ∨
    func.place target (func.codeEnd target) ≤ func.addr
  range : ∀ insn ∈ func.insns target, ∀ a, insn.reference target.arch = some a →
    ∀ x, func.instrumentedAddr ≤ x → x ≤ func.place target (func.codeEnd target) →
      -2 ^ 31 ≤ (a : Int) - x ∧ (a : Int) - x < 2 ^ 31
  direct : ∀ insn ∈ func.insns target, isJump insn = true → ∀ a,
    insn.reference target.arch = some a → func.inCode target a = true →
      a ∈ (func.insns target).map fun insn => insn.kaddr

section Emit

variable {target} {func} {f : Function} {a : Nat}

/-- The function while it is walked: at least up to the zeros. -/
structure Function.InWalk (target : Target) (func f : Function) : Prop where
  addr : f.addr = func.addr
  trimmed : func.trimmed target ≤ f.size
  size : func.addr + f.size ≤ func.codeEnd target

theorem Function.InWalk.contains_eq (hf : Function.InWalk target func f)
    (ha : func.inCode target a = true → a < func.addr + func.trimmed target) :
    f.contains a = func.inCode target a := by
  obtain ⟨haddr, htrimmed, hsize⟩ := hf
  rw [Function.inCode] at ha ⊢
  rw [Function.contains, haddr]
  simp only [Bool.and_eq_true, decide_eq_true_eq] at ha
  rw [Bool.eq_iff_iff]
  simp only [Bool.and_eq_true, decide_eq_true_eq]
  omega

theorem Function.InWalk.contains_false (hf : Function.InWalk target func f)
    (ha : func.inCode target a = false) : f.contains a = false := by
  rw [hf.contains_eq fun h => absurd h (by rw [ha]; exact Bool.false_ne_true), ha]

end Emit

section Kinds

variable {arch : Arch} {insn : Insn}

def isShort (insn : Insn) : Bool := isJmpShort insn || isJccShort insn || isJcxzOrLoop insn

theorem isShort_not_near (h : isShort insn = true) :
    isCallOrJmpNear insn = false ∧ isJccNear insn = false := by
  simp only [isShort, isJmpShort, isJccShort, isJcxzOrLoop, Bool.or_eq_true, Bool.and_eq_true,
    decide_eq_true_eq] at h
  simp only [isCallOrJmpNear, isJccNear, Bool.or_eq_false_iff, Bool.and_eq_false_iff,
    decide_eq_false_iff_not]
  refine ⟨⟨?_, ?_⟩, Or.inl ?_⟩ <;> intro hopcode <;> rw [hopcode] at h <;> revert h <;> decide

theorem operand_of_near (h : isCallOrJmpNear insn = true ∨ isJccNear insn = true) :
    insn.operand = some (.rel32 insn.immediateOffset) := by
  rw [Insn.operand, if_pos (by simpa using h)]

theorem operand_of_isShort (h : isShort insn = true) :
    insn.operand = some (.rel8 insn.immediateOffset) := by
  obtain ⟨hnear, hjcc⟩ := isShort_not_near h
  rw [isShort] at h
  simp only [Insn.operand, hnear, hjcc, Bool.or_self, Bool.false_eq_true, if_false, h, if_true]

theorem Insn.Correct.reference_near (hc : insn.Correct arch)
    (h : isCallOrJmpNear insn = true ∨ isJccNear insn = true) :
    insn.reference arch = some (kedrAddrFromOffset arch insn.kaddr insn.length insn.immediate) := by
  rw [Insn.reference, operand_of_near h, Option.map_some, refersTo, hc.length, ← (hc.near h).2]

theorem Insn.Correct.reference_short (hc : insn.Correct arch) (h : isShort insn = true) :
    insn.reference arch = some (jumpAddr arch insn) := by
  have hvalue := hc.short (by simpa [isShort, or_assoc] using h)
  rw [Insn.reference, operand_of_isShort h, Option.map_some, refersTo, hc.length, ← hvalue, jumpAddr]

theorem reference_cases {a : Nat} (h : insn.reference arch = some a) :
    isCallOrJmpNear insn = true ∨ isJccNear insn = true ∨ isShort insn = true ∨
      insn.ripRelative = true := by
  rw [Insn.reference, Insn.operand] at h
  split_ifs at h with hnear hshort hrip
  · rcases Bool.or_eq_true _ _ ▸ hnear with hnear | hnear
    · exact Or.inl hnear
    · exact Or.inr (Or.inl hnear)
  · exact Or.inr (Or.inr (Or.inl hshort))
  · exact Or.inr (Or.inr (Or.inr hrip))
  · cases h

theorem Insn.Correct.reference_rip (hc : insn.Correct arch) (h : insn.ripRelative = true) :
    insn.operand = some (.rel32 insn.displacementOffset) ∧
      insn.reference arch =
        some (kedrAddrFromOffset arch insn.kaddr insn.length insn.displacement) := by
  obtain ⟨-, -, hvalue, hjump, hnear⟩ := hc.rip h
  have hoperand : insn.operand = some (.rel32 insn.displacementOffset) := by
    simp only [isJump, Bool.or_eq_false_iff] at hjump
    simp [Insn.operand, hnear, hjump, h]
  exact ⟨hoperand, by rw [Insn.reference, hoperand, Option.map_some, refersTo, hc.length, ← hvalue]⟩

end Kinds

section Code

variable {target} {func} {insn : Insn} {f : Function} {dest : Nat}

theorem Function.Relocatable.tiles (h : func.Relocatable target) :
    Tiles (fun insn : Insn => insn.kaddr) (fun insn => insn.length) (func.insns target) func.addr
        (func.codeEnd target) ∧
      func.addr + func.trimmed target ≤ func.codeEnd target ∧
      ∀ insn ∈ func.insns target, insn.kaddr < func.addr + func.trimmed target := by
  have hpos := Nat.pos_of_ne_zero h.notZeros
  obtain ⟨e, hle, htiles, hstarts⟩ := @insnsFrom_tiles Insn (fun insn => insn.kaddr)
    (fun insn => insn.length) target.decode h.kaddr _ _ _
    (le_refl (func.addr + func.trimmed target)) (by omega) h.length
  have hend : func.codeEnd target = e := lastEnd_eq htiles
  rw [hend]
  exact ⟨htiles, hle, hstarts⟩

variable {a offset : Nat}

theorem Function.Relocatable.contains_jump (h : func.Relocatable target)
    (hinsn : insn ∈ func.insns target) (hf : Function.InWalk target func f)
    (hjump : isJump insn = true) (ha : insn.reference target.arch = some a) :
    f.contains a = func.inCode target a := by
  refine hf.contains_eq fun hin => ?_
  obtain ⟨insn', hinsn', rfl⟩ := List.mem_map.mp (h.direct insn hinsn hjump a ha hin)
  exact h.tiles.2.2 insn' hinsn'

structure Function.Emits (target : Target) (func : Function) (insn : Insn) (dest : Nat)
    (emitted : Emitted) : Prop where
  length : emitted.code.length = func.emittedLength target insn
  same : ∀ a, insn.reference target.arch = some a →
    isPlain insn = true ∨ (isJump insn = true ∧ func.inCode target a = true) →
      emitted = ⟨insn.bytes, insn.operand⟩
  outside : ∀ a, insn.reference target.arch = some a → isPlain insn = false →
    func.inCode target a = false →
      (∀ x, dest ≤ x → x ≤ dest + func.emittedLength target insn →
        -2 ^ 31 ≤ (a : Int) - x ∧ (a : Int) - x < 2 ^ 31) →
      emitted.operand.map (refersTo target.arch dest emitted.code) = some a

theorem refersTo_fixup (hc : insn.Correct target.arch) (hoffset : offset + 4 ≤ insn.length)
    (ha : a < 2 ^ target.arch.bits) (hrange : -2 ^ 31 ≤ (a : Int) - (dest + insn.length) ∧
      (a : Int) - (dest + insn.length) < 2 ^ 31) :
    refersTo target.arch dest (fixup insn offset dest a) (.rel32 offset) = a := by
  rw [refersTo, fixup, length_overwrite, hc.length, Operand.value, load_overwrite _ (by
    rw [hc.length]
    exact hoffset)]
  exact kedrAddrFromOffset_kedrOffsetFromAddr ha hrange.1 hrange.2

theorem emits_processShort (h : func.Relocatable target) (hinsn : insn ∈ func.insns target)
    (hf : Function.InWalk target func f) (hshort : isShort insn = true)
    (hplain : isPlain insn = false) {opcode : List Byte}
    (hlength : func.emittedLength target insn =
      if func.inCode target (jumpAddr target.arch insn) then insn.length else opcode.length + 4) :
    Function.Emits target func insn dest (processShort target.arch f (fun addr =>
      ⟨opcode ++ u32Bytes (kedrOffsetFromAddr dest (opcode.length + 4) addr),
        some (.rel32 opcode.length)⟩) insn) := by
  have hc := h.correct insn hinsn
  have hreference := hc.reference_short hshort
  have hjump : isJump insn = true := by
    simp only [isShort, Bool.or_eq_true] at hshort
    simp only [isJump, Bool.or_eq_true]
    tauto
  have hcontains := h.contains_jump hinsn hf hjump hreference
  cases hin : func.inCode target (jumpAddr target.arch insn) with
  | true =>
    rw [hin] at hlength hcontains
    simp only [processShort, hcontains, Bool.not_true, Bool.false_eq_true, if_false]
    refine ⟨by simp only [hlength, if_true, hc.length], fun _ _ _ => rfl, fun a ha _ hout => ?_⟩
    rw [hreference] at ha
    cases ha
    rw [hin] at hout
    cases hout
  | false =>
    rw [hin] at hlength hcontains
    simp only [Bool.false_eq_true, if_false] at hlength
    simp only [processShort, hcontains, Bool.not_false, if_true]
    refine ⟨?_, fun a ha hcase => ?_, fun a ha _ _ hrange => ?_⟩
    · simp [hlength, u32Bytes]
    · rw [hreference] at ha
      cases ha
      rw [hplain, hin] at hcase
      rcases hcase with hcase | ⟨-, hcase⟩ <;> cases hcase
    · rw [hreference] at ha
      cases ha
      rw [hlength] at hrange
      obtain ⟨hlow, hhigh⟩ := hrange (dest + (opcode.length + 4)) (by omega) (le_refl _)
      rw [Option.map_some, refersTo, Operand.value, load_u32Bytes]
      simp only [u32Bytes, List.length_append, length_store]
      have hlt : jumpAddr target.arch insn < 2 ^ target.arch.bits := kedrAddrFromOffset_lt _ _ _
      refine congrArg some (kedrAddrFromOffset_kedrOffsetFromAddr hlt ?_ ?_)
      · push_cast at hlow ⊢
        omega
      · push_cast at hhigh ⊢
        omega

theorem emits_fixup (hc : insn.Correct target.arch) (hplain : isPlain insn = false)
    (hoffset : offset + 4 ≤ insn.length) (hoperand : insn.operand = some (.rel32 offset))
    (hreference : insn.reference target.arch = some a) (ha : a < 2 ^ target.arch.bits)
    (hlength : func.emittedLength target insn = insn.length)
    (hcontains : func.inCode target a = false → f.contains a = false)
    (hjump : isJump insn = true → func.inCode target a = true → f.contains a = true) :
    Function.Emits target func insn dest (if f.contains a then ⟨insn.bytes, insn.operand⟩
      else ⟨fixup insn offset dest a, insn.operand⟩) := by
  refine ⟨?_, fun a' ha' hcase => ?_, fun a' ha' _ hout hrange => ?_⟩
  · split_ifs
    · rw [hlength, hc.length]
    · rw [hlength, fixup, length_overwrite, hc.length]
  · rw [hreference] at ha'
    cases ha'
    rcases hcase with hcase | ⟨hcase, hin⟩
    · rw [hplain] at hcase
      cases hcase
    · rw [if_pos (hjump hcase hin)]
  · rw [hreference] at ha'
    cases ha'
    rw [hcontains hout, hoperand, hlength] at *
    obtain ⟨hlow, hhigh⟩ := hrange (dest + insn.length) (by omega) (le_refl _)
    simp only [Bool.false_eq_true, if_false, Option.map_some]
    rw [refersTo_fixup hc hoffset ha ⟨by push_cast at hlow ⊢; omega, by push_cast at hhigh ⊢; omega⟩]

end Code

section Walk

variable {target} {func} {insn : Insn} {f : Function} {dest : Nat}

theorem emittedLength_of_not_short (hjmp : isJmpShort insn = false) (hjcc : isJccShort insn = false) :
    func.emittedLength target insn = insn.length := by
  simp [Function.emittedLength, hjmp, hjcc]

theorem emits_emit (h : func.Relocatable target) (hinsn : insn ∈ func.insns target)
    (hf : Function.InWalk target func f) :
    Function.Emits target func insn dest (emit target.arch f insn dest) := by
  have hc := h.correct insn hinsn
  rw [emit]
  by_cases hjmp : insn.opcode = 0xeb
  · -- jmp short
    have hplain : isPlain insn = false := by
      simp [isPlain, isJccNear, isJcxzOrLoop, hjmp]
    have hkind : isJmpShort insn = true := by simp [isJmpShort, hjmp]
    have hshort : isShort insn = true := by simp [isShort, hkind]
    rw [if_pos hjmp, processJmpShort]
    refine @emits_processShort target func insn f dest h hinsn hf hshort hplain [0xe9] ?_
    have hjcc : isJccShort insn = false := by simp [isJccShort, hjmp]
    cases hin : func.inCode target (jumpAddr target.arch insn) <;>
      simp [Function.emittedLength, hkind, hjcc, hin]
  rw [if_neg hjmp]
  have hjmp' : isJmpShort insn = false := decide_eq_false hjmp
  by_cases hjcc : insn.opcode ≥ 0x70 ∧ insn.opcode ≤ 0x7f
  · -- jcc short
    have hkind : isJccShort insn = true := by
      simpa only [isJccShort, Bool.and_eq_true, decide_eq_true_eq] using hjcc
    have hshort : isShort insn = true := by simp [isShort, hkind]
    have hplain : isPlain insn = false := by
      have hloop : isJcxzOrLoop insn = false := by
        obtain ⟨hlow, hhigh⟩ := hjcc
        simp only [isJcxzOrLoop, Bool.or_eq_false_iff, Bool.and_eq_false_iff,
          decide_eq_false_iff_not]
        exact ⟨by bv_omega, Or.inl (by bv_omega)⟩
      rw [isPlain, (isShort_not_near hshort).2, hloop]
      rfl
    rw [if_pos hjcc, processJccShort]
    refine @emits_processShort target func insn f dest h hinsn hf hshort hplain
      [0x0f, insn.opcode + 0x10] ?_
    cases hin : func.inCode target (jumpAddr target.arch insn) <;>
      simp [Function.emittedLength, hkind, hjmp', hin]
  rw [if_neg hjcc, if_neg hjmp]
  have hjcc' : isJccShort insn = false := by
    rw [isJccShort, ← Bool.not_eq_true]
    simpa using hjcc
  have hlength := @emittedLength_of_not_short target func insn hjmp' hjcc'
  rw [copyAndFixupInsn]
  by_cases hnear : isCallOrJmpNear insn = true
  · -- call and jmp near
    have hplain : isPlain insn = false := by
      simp only [isCallOrJmpNear, Bool.or_eq_true, decide_eq_true_eq] at hnear
      rcases hnear with hopcode | hopcode <;> simp [isPlain, isJccNear, isJcxzOrLoop, hopcode]
    have hreference := hc.reference_near (Or.inl hnear)
    rw [if_pos hnear]
    refine emits_fixup hc hplain (hc.near (Or.inl hnear)).1 (operand_of_near (Or.inl hnear))
      hreference (kedrAddrFromOffset_lt _ _ _) hlength (fun hout => hf.contains_false hout)
      fun hjump hin => ?_
    rw [h.contains_jump hinsn hf hjump hreference, hin]
  rw [if_neg hnear]
  by_cases hrip : insn.ripRelative = true
  · -- memory relative to the instruction
    obtain ⟨harch, hoffset, -, hjump, -⟩ := hc.rip hrip
    obtain ⟨hoperand, hreference⟩ := hc.reference_rip hrip
    have hplain : isPlain insn = false := by
      simp only [isJump, Bool.or_eq_false_iff] at hjump
      simp [isPlain, hjump]
    rw [if_pos ⟨harch, hrip⟩]
    refine emits_fixup hc hplain hoffset hoperand hreference (kedrAddrFromOffset_lt _ _ _) hlength
      (fun hout => hf.contains_false hout) fun hjump' _ => ?_
    rw [hjump] at hjump'
    cases hjump'
  · rw [if_neg fun hand => hrip hand.2]
    refine ⟨by rw [hlength, hc.length], fun _ _ _ => rfl, fun a ha hplain _ _ => ?_⟩
    -- only the kinds that are not handled are left
    exfalso
    rcases reference_cases ha with hkind | hkind | hkind | hkind
    · exact hnear hkind
    · simp [isPlain, hkind] at hplain
    · simp only [isShort, hjmp', hjcc', Bool.false_or] at hkind
      simp [isPlain, hkind] at hplain
    · exact hrip hkind

end Walk

section Places

variable {target} {func}

variable {pre rest : List Insn} {a b : Nat} {s : State}

theorem place_of_split (hsplit : func.insns target = pre ++ rest)
    (hpre : Tiles (fun insn : Insn => insn.kaddr) (fun insn => insn.length) pre func.addr a)
    (hrest : Tiles (fun insn : Insn => insn.kaddr) (fun insn => insn.length) rest a
      (func.codeEnd target)) :
    func.place target a = func.instrumentedAddr + (entryCallPattern target.arch).length +
      (pre.map (func.emittedLength target)).sum := by
  have hall : pre.filter (fun insn => insn.kaddr < a) = pre := by
    refine List.filter_eq_self.mpr fun insn hinsn => ?_
    obtain ⟨-, hlen, hend⟩ := hpre.mem_bounds hinsn
    simp only [decide_eq_true_eq]
    omega
  have hnone : rest.filter (fun insn => insn.kaddr < a) = [] := by
    refine List.filter_eq_nil_iff.mpr fun insn hinsn => ?_
    have hge := (hrest.mem_bounds hinsn).1
    simp only [decide_eq_true_eq]
    omega
  rw [Function.place, hsplit, List.filter_append, hall, hnone, List.append_nil]

theorem sum_filter_lt (g : Insn → Nat) (hab : a ≤ b) (insns : List Insn) :
    ((insns.filter fun insn => insn.kaddr < b).map g).sum =
      ((insns.filter fun insn => insn.kaddr < a).map g).sum +
        ((insns.filter fun insn => a ≤ insn.kaddr && insn.kaddr < b).map g).sum := by
  induction insns with
  | nil => rfl
  | cons insn insns ih =>
    by_cases ha : insn.kaddr < a
    · have hb : insn.kaddr < b := by omega
      have hnot : ¬ a ≤ insn.kaddr := by omega
      simp [ha, hb, ih, Nat.add_assoc]
    · by_cases hb : insn.kaddr < b
      · have hle : a ≤ insn.kaddr := by omega
        simp [ha, hb, hle, ih, Nat.add_left_comm]
      · simp [ha, hb, ih]

theorem place_add_emittedBetween (hab : a ≤ b) :
    func.place target b = func.place target a + func.emittedBetween target a b := by
  rw [Function.place, Function.place, Function.emittedBetween, sum_filter_lt _ hab, Nat.add_assoc,
    Nat.add_assoc, Nat.add_assoc]

theorem emittedLength_le (insn : Insn) (hpos : 0 < insn.length) :
    func.emittedLength target insn ≤ 6 * insn.length := by
  rw [Function.emittedLength]
  split_ifs <;> omega

theorem sum_emittedLength_le {insns : List Insn} {e : Nat}
    (h : Tiles (fun insn : Insn => insn.kaddr) (fun insn => insn.length) insns a e) :
    (insns.map (func.emittedLength target)).sum ≤ 6 * (e - a) := by
  induction insns generalizing a with
  | nil => exact Nat.zero_le _
  | cons insn insns ih =>
    obtain ⟨-, hpos, htail⟩ := h
    have hle : a + insn.length ≤ e := htail.le
    have hsum : (insns.map (func.emittedLength target)).sum ≤ 6 * (e - (a + insn.length)) :=
      ih htail
    have hfirst := @emittedLength_le target func insn hpos
    rw [List.map_cons, List.sum_cons]
    omega

/-- The copied instructions so far. -/
structure Function.Walked (target : Target) (func : Function) (pre : List Insn) (s : State) :
    Prop where
  inWalk : Function.InWalk target func s.func
  dest : s.destAddr = func.instrumentedAddr + (entryCallPattern target.arch).length +
    (pre.map (func.emittedLength target)).sum
  insns : s.copies.map Copy.insn = pre
  copies : ∀ copy ∈ s.copies, copy.dest = func.place target copy.insn.kaddr ∧
    Function.Emits target func copy.insn copy.dest copy.emitted

/-- An instruction is copied behind the copies of those before it. -/
theorem Function.Walked.step (h : func.Relocatable target) {insn : Insn}
    (hs : Function.Walked target func pre s) (hsplit : func.insns target = pre ++ insn :: rest)
    (hpre : Tiles (fun insn : Insn => insn.kaddr) (fun insn => insn.length) pre func.addr a)
    (hrest : Tiles (fun insn : Insn => insn.kaddr) (fun insn => insn.length) (insn :: rest) a
      (func.codeEnd target)) :
    Function.Walked target func (pre ++ [insn]) (doProcessInsn target.arch s insn) := by
  have hinsn : insn ∈ func.insns target := by
    rw [hsplit]
    simp
  obtain ⟨hk, hlen, hend⟩ := h.tiles.1.mem_bounds hinsn
  obtain ⟨⟨haddr, htrimmed, hsize⟩, hdest, hinsns, hcopies⟩ := hs
  -- the function is enlarged
  obtain ⟨f, hf, hwalk⟩ : ∃ f : Function,
      (if insn.kaddr + insn.length - s.func.addr > s.func.size then
        { s.func with size := insn.kaddr + insn.length - s.func.addr } else s.func) = f ∧
      Function.InWalk target func f := by
    refine ⟨_, rfl, ?_⟩
    split_ifs with hgt
    · exact ⟨haddr, by simp only; omega, by simp only; omega⟩
    · exact ⟨haddr, htrimmed, hsize⟩
  have hemits := @emits_emit target func insn f s.destAddr h hinsn hwalk
  have hplace : s.destAddr = func.place target insn.kaddr := by
    have hstart : insn.kaddr = a := hrest.1
    rw [hstart, place_of_split hsplit hpre hrest, hdest]
  simp only [doProcessInsn, hf]
  refine ⟨hwalk, ?_, ?_, ?_⟩
  · simp only [hemits.length, List.map_append, List.map_cons, List.map_nil, List.sum_append,
      List.sum_cons, List.sum_nil]
    omega
  · simp only [List.map_append, hinsns, List.map_cons, List.map_nil]
  · intro copy hcopy
    rcases List.mem_append.mp hcopy with hcopy | hcopy
    · exact hcopies copy hcopy
    · rw [List.mem_singleton.mp hcopy]
      exact ⟨hplace, hemits⟩

theorem Function.Walked.foldl (h : func.Relocatable target) (hs : Function.Walked target func pre s)
    (hsplit : func.insns target = pre ++ rest)
    (hpre : Tiles (fun insn : Insn => insn.kaddr) (fun insn => insn.length) pre func.addr a)
    (hrest : Tiles (fun insn : Insn => insn.kaddr) (fun insn => insn.length) rest a
      (func.codeEnd target)) :
    Function.Walked target func (func.insns target) (rest.foldl (doProcessInsn target.arch) s) := by
  induction rest generalizing pre a s with
  | nil =>
    rw [hsplit, List.append_nil]
    exact hs
  | cons insn rest ih =>
    have hstep := hs.step h hsplit hpre hrest
    obtain ⟨hstart, hpos, htail⟩ := hrest
    exact ih hstep (by rw [hsplit, List.append_assoc]; rfl)
      (hpre.append ⟨hstart, hpos, rfl⟩) htail

end Places

section Instrumented

/-- Copies refer to the same addresses outside of the function, and jumps to the copies of the
instructions inside. -/
structure Function.PreservesFlow (r : Instrumented) : Prop where
  insns : r.copies.map Copy.insn = func.insns target
  outside : ∀ copy ∈ r.copies, ∀ a, copy.insn.reference target.arch = some a →
    func.inCode target a = false → copy.reference target.arch = some a
  inside : ∀ copy ∈ r.copies, isJump copy.insn = true → ∀ a,
    copy.insn.reference target.arch = some a → func.inCode target a = true →
      ∃ copy' ∈ r.copies, copy'.insn.kaddr = a ∧ copy.reference target.arch = some copy'.dest

/-- The function is instrumented, and control goes the same way in the copy, if there is one. -/
def Function.Relocates : Prop :=
  ∃ result, instrumentFunction target func = .ok result ∧
    ∀ r, result = some r → func.PreservesFlow target r

/-- Kinds that are not handled stay in the function, and jumps inside of it do not pass over code
of another length. -/
structure Function.Movable : Prop where
  plain : ∀ insn ∈ func.insns target, isPlain insn = true → ∀ a,
    insn.reference target.arch = some a → func.inCode target a = true
  lengths : ∀ insn ∈ func.insns target, isJump insn = true → ∀ a,
    insn.reference target.arch = some a → func.inCode target a = true →
      func.emittedBetween target (min insn.kaddr a) (max insn.kaddr a) =
        max insn.kaddr a - min insn.kaddr a

variable {target} {func} {insn : Insn}

theorem Function.Relocatable.instrumentFunction_eq (h : func.Relocatable target)
    (hsize : ¬ func.size < 5) :
    ∃ r, instrumentFunction target func = .ok (some r) ∧
      r.copies.map Copy.insn = func.insns target ∧
      ∀ copy ∈ r.copies, copy.dest = func.place target copy.insn.kaddr ∧
        Function.Emits target func copy.insn copy.dest copy.emitted := by
  obtain ⟨htiles, htrimmed, -⟩ := h.tiles
  have hinit : Function.Walked target func []
      ⟨{ func with size := func.trimmed target },
        func.instrumentedAddr + (entryCallPattern target.arch).length, []⟩ :=
    ⟨⟨rfl, le_refl _, htrimmed⟩, rfl, rfl, fun copy hcopy => (by cases hcopy)⟩
  have hwalked := hinit.foldl h (show func.insns target = [] ++ func.insns target from rfl)
    (show Tiles _ _ [] func.addr func.addr from rfl) htiles
  have hwalk := @doForEachInsn_eq State Insn (fun insn => insn.length) target.decode
    (doProcessInsn target.arch) (func.trimmed target) func.addr (func.addr + func.trimmed target)
    ⟨{ func with size := func.trimmed target },
      func.instrumentedAddr + (entryCallPattern target.arch).length, []⟩ h.length
  rw [← Function.insns] at hwalk
  have hzeros : skipZeros target.byte func.addr func.size = func.trimmed target := rfl
  generalize (func.insns target).foldl (doProcessInsn target.arch)
    ⟨{ func with size := func.trimmed target },
      func.instrumentedAddr + (entryCallPattern target.arch).length, []⟩ = s at hwalked hwalk
  refine ⟨⟨s.func, entryCall target.arch target.wrapper { func with size := func.trimmed target },
    s.copies, s.destAddr - func.instrumentedAddr,
    0xe9 :: u32Bytes (kedrOffsetFromAddr func.addr 5 func.instrumentedAddr)⟩, ?_, hwalked.insns,
    hwalked.copies⟩
  simp only [instrumentFunction, if_neg hsize, hzeros, if_neg h.notZeros, hwalk]
  rfl

theorem Function.Relocatable.place_add_le (h : func.Relocatable target)
    (hinsn : insn ∈ func.insns target) :
    func.place target insn.kaddr + func.emittedLength target insn ≤
        func.place target (func.codeEnd target) ∧
      0 < func.emittedLength target insn := by
  obtain ⟨hk, hlen, hend⟩ := h.tiles.1.mem_bounds hinsn
  constructor
  · rw [place_add_emittedBetween (show insn.kaddr ≤ func.codeEnd target by omega)]
    refine Nat.add_le_add_left (List.le_sum_of_mem (List.mem_map_of_mem ?_)) _
    refine List.mem_filter.mpr ⟨hinsn, ?_⟩
    simp only [le_refl, decide_true, Bool.true_and, decide_eq_true_eq]
    omega
  · rw [Function.emittedLength]
    split_ifs <;> omega

theorem instrumentedAddr_le_place (a : Nat) : func.instrumentedAddr ≤ func.place target a := by
  rw [Function.place, Nat.add_assoc]
  exact Nat.le_add_right _ _

variable {a : Nat} {operand : Operand} {copies : List Copy} {copy : Copy}

theorem Function.Relocatable.place_le (h : func.Relocatable target) (ha : a ≤ func.codeEnd target) :
    func.place target a ≤ func.place target (func.codeEnd target) ∧
      func.place target (func.codeEnd target) <
        func.instrumentedAddr + (entryCallPattern target.arch).length + 6 * 2 ^ 26 := by
  constructor
  · rw [place_add_emittedBetween ha]
    exact Nat.le_add_right _ _
  · have hsum := @sum_emittedLength_le target func _ _ _ h.tiles.1
    have hsmall := h.small
    rw [place_of_split (List.append_nil _).symm h.tiles.1 rfl]
    omega

/-- The copy that is not changed refers to the copy of the same instruction exactly when the
lengths in between are the same. -/
theorem Function.Relocatable.moved_iff (h : func.Relocatable target)
    (hinsn : insn ∈ func.insns target) (ha : refersTo target.arch insn.kaddr insn.bytes operand = a)
    (hin : func.inCode target a = true) :
    refersTo target.arch (func.place target insn.kaddr) insn.bytes operand = func.place target a ↔
      func.emittedBetween target (min insn.kaddr a) (max insn.kaddr a) =
        max insn.kaddr a - min insn.kaddr a := by
  obtain ⟨hk, hlen, hend⟩ := h.tiles.1.mem_bounds hinsn
  have hsmall := h.small
  have hbuffer := h.buffer
  simp only [Function.inCode, Bool.and_eq_true, decide_eq_true_eq] at hin
  obtain ⟨hle, hnear⟩ := h.place_le (show a ≤ func.codeEnd target by omega)
  obtain ⟨hle', -⟩ := h.place_le (show insn.kaddr ≤ func.codeEnd target by omega)
  have hlow := @instrumentedAddr_le_place target func a
  have hlow' := @instrumentedAddr_le_place target func insn.kaddr
  have hpattern : (entryCallPattern target.arch).length ≤ 14 := by
    cases target.arch <;> decide
  rw [refersTo] at ha
  rw [refersTo, kedrAddrFromOffset_eq_iff (a := insn.kaddr) (by omega) (by rw [ha]; omega)
    (by rw [ha]; omega), ha]
  rcases Nat.le_total insn.kaddr a with hab | hab
  · have hbetween := @place_add_emittedBetween target func _ _ hab
    rw [Nat.min_eq_left hab, Nat.max_eq_right hab]
    omega
  · have hbetween := @place_add_emittedBetween target func _ _ hab
    rw [Nat.min_eq_right hab, Nat.max_eq_left hab]
    omega

theorem Function.Relocatable.place_ne (h : func.Relocatable target)
    (hinsn : insn ∈ func.insns target) : func.place target insn.kaddr ≠ insn.kaddr := by
  obtain ⟨hk, hlen, hend⟩ := h.tiles.1.mem_bounds hinsn
  obtain ⟨hle, hpos⟩ := h.place_add_le hinsn
  have hlow := @instrumentedAddr_le_place target func insn.kaddr
  rcases h.apart with hapart | hapart <;> omega

structure Function.Copies (target : Target) (func : Function) (copies : List Copy) : Prop where
  insns : copies.map Copy.insn = func.insns target
  copies : ∀ copy ∈ copies, copy.dest = func.place target copy.insn.kaddr ∧
    Function.Emits target func copy.insn copy.dest copy.emitted

theorem Function.Copies.mem (hcopies : Function.Copies target func copies) (hcopy : copy ∈ copies) :
    copy.insn ∈ func.insns target := by
  rw [← hcopies.insns]
  exact List.mem_map_of_mem hcopy

theorem Function.Copies.exists_copy (hcopies : Function.Copies target func copies)
    (hinsn : insn ∈ func.insns target) :
    ∃ copy ∈ copies, copy.insn = insn := by
  rw [← hcopies.insns] at hinsn
  exact List.mem_map.mp hinsn

theorem Copy.reference_same (hemitted : copy.emitted = ⟨copy.insn.bytes, copy.insn.operand⟩)
    (hoperand : copy.insn.operand = some operand) :
    copy.reference target.arch =
      some (refersTo target.arch copy.dest copy.insn.bytes operand) := by
  rw [Copy.reference, hemitted]
  simp only [hoperand, Option.map_some]

theorem reference_eq_some {arch : Arch} (h : insn.reference arch = some a) :
    ∃ operand, insn.operand = some operand ∧ refersTo arch insn.kaddr insn.bytes operand = a := by
  rw [Insn.reference] at h
  exact Option.map_eq_some_iff.mp h

theorem preservesFlow_iff (h : func.Relocatable target) {r : Instrumented}
    (hcopies : Function.Copies target func r.copies) :
    func.PreservesFlow target r ↔ func.Movable target := by
  constructor
  · intro hflow
    constructor
    · intro insn hinsn hplain a ha
      rw [← Bool.not_eq_false]
      intro hout
      obtain ⟨copy, hcopy, rfl⟩ := hcopies.exists_copy hinsn
      obtain ⟨hdest, hemits⟩ := hcopies.copies copy hcopy
      obtain ⟨operand, hoperand, hrefers⟩ := reference_eq_some ha
      have hcopyRef := hflow.outside copy hcopy a ha hout
      rw [Copy.reference_same (hemits.same a ha (Or.inl hplain)) hoperand, ← hrefers] at hcopyRef
      -- the copy would be where the original is
      have hbuffer := h.buffer
      have hfits := h.fits
      obtain ⟨hle, -⟩ := h.place_add_le hinsn
      obtain ⟨-, -, hend⟩ := h.tiles.1.mem_bounds hinsn
      refine h.place_ne hinsn (hdest ▸ ?_)
      exact kedrAddrFromOffset_inj (by omega) (by omega) (Option.some.inj hcopyRef)
    · intro insn hinsn hjump a ha hin
      obtain ⟨copy, hcopy, rfl⟩ := hcopies.exists_copy hinsn
      obtain ⟨hdest, hemits⟩ := hcopies.copies copy hcopy
      obtain ⟨operand, hoperand, hrefers⟩ := reference_eq_some ha
      obtain ⟨copy', hcopy', rfl, hcopyRef⟩ := hflow.inside copy hcopy hjump a ha hin
      rw [Copy.reference_same (hemits.same _ ha (Or.inr ⟨hjump, hin⟩)) hoperand, hdest,
        (hcopies.copies copy' hcopy').1] at hcopyRef
      exact (h.moved_iff hinsn hrefers hin).mp (Option.some.inj hcopyRef)
  · intro hmovable
    refine ⟨hcopies.insns, fun copy hcopy a ha hout => ?_, fun copy hcopy hjump a ha hin => ?_⟩
    · have hinsn := hcopies.mem hcopy
      obtain ⟨hdest, hemits⟩ := hcopies.copies copy hcopy
      have hplain : isPlain copy.insn = false := by
        rw [← Bool.not_eq_true]
        intro hplain
        rw [hmovable.plain _ hinsn hplain a ha] at hout
        cases hout
      refine hemits.outside a ha hplain hout fun x hlow hhigh => h.range _ hinsn a ha x ?_ ?_
      · have hle := @instrumentedAddr_le_place target func copy.insn.kaddr
        omega
      · obtain ⟨hle, -⟩ := h.place_add_le hinsn
        omega
    · have hinsn := hcopies.mem hcopy
      obtain ⟨hdest, hemits⟩ := hcopies.copies copy hcopy
      obtain ⟨operand, hoperand, hrefers⟩ := reference_eq_some ha
      obtain ⟨insn', hinsn', rfl⟩ := List.mem_map.mp (h.direct _ hinsn hjump a ha hin)
      obtain ⟨copy', hcopy', rfl⟩ := hcopies.exists_copy hinsn'
      refine ⟨copy', hcopy', rfl, ?_⟩
      rw [Copy.reference_same (hemits.same _ ha (Or.inr ⟨hjump, hin⟩)) hoperand, hdest,
        (hcopies.copies copy' hcopy').1]
      exact congrArg some ((h.moved_iff hinsn hrefers hin).mpr
        (hmovable.lengths _ hinsn hjump _ ha hin))

/-- A function is relocated properly exactly if it is shorter than 5 bytes, so that it is
skipped, or each of its instructions can be moved. -/
theorem relocates_iff (h : func.Relocatable target) :
    func.Relocates target ↔ func.size < 5 ∨ func.Movable target := by
  by_cases hsize : func.size < 5
  · refine ⟨fun _ => Or.inl hsize, fun _ => ⟨none, if_pos hsize, fun r hr => (by cases hr)⟩⟩
  · obtain ⟨r, hr, hinsns, hcopies⟩ := h.instrumentFunction_eq hsize
    have hiff := preservesFlow_iff h ⟨hinsns, hcopies⟩
    constructor
    · rintro ⟨result, hresult, hflow⟩
      rw [hr] at hresult
      cases hresult
      exact Or.inr (hiff.mp (hflow r rfl))
    · rintro (hlt | hmovable)
      · exact absurd hlt hsize
      · refine ⟨some r, hr, fun r' hr' => ?_⟩
        cases hr'
        exact hiff.mpr hmovable

end Instrumented

section Samples

/-- An instruction at the given address, with a relative operand at the given offset, if any. -/
def sampleInsn (kaddr : Nat) (bytes : List Byte) (immediateOffset : Nat) : Insn where
  kaddr := kaddr
  length := bytes.length
  opcode := bytes.headD 0
  opcode1 := bytes.tail.headD 0
  modrm := 0
  immediateByte := (bytes.drop immediateOffset).headD 0
  immediate := (Operand.rel32 immediateOffset).value bytes
  displacement := 0
  bytes := bytes
  immediateOffset := immediateOffset
  displacementOffset := 0
  ripRelative := false

/-- The code `nop`, `jne` back to it and `jmp short` to another function. -/
def loopTarget : Target where
  arch := .x86_64
  byte a := [0x90, 0x75, 0xfd, 0xeb, 0x10].getD (a - 4096) 0
  decode a :=
    if a = 4097 then sampleInsn a [0x75, 0xfd] 1
    else if a = 4099 then sampleInsn a [0xeb, 0x10] 1
    else sampleInsn a [0x90] 0
  wrapper := 131072

def sampleFunction : Function := ⟨4096, 8, 65536⟩

theorem loopTarget_insns : sampleFunction.insns loopTarget =
    [sampleInsn 4096 [0x90] 0, sampleInsn 4097 [0x75, 0xfd] 1, sampleInsn 4099 [0xeb, 0x10] 1] := by
  decide

theorem loopTarget_relocatable : sampleFunction.Relocatable loopTarget := by
  refine ⟨fun a => ?_, by decide, by decide, ?_, by decide, by decide, by decide,
    Or.inl (by decide), ?_, ?_⟩
  · simp only [loopTarget]
    split_ifs <;> rfl
  · intro insn hinsn
    rw [loopTarget_insns] at hinsn
    simp only [List.mem_cons, List.not_mem_nil, or_false] at hinsn
    rcases hinsn with rfl | rfl | rfl <;> constructor <;> decide
  · intro insn hinsn a ha x hlow hhigh
    have hend : sampleFunction.place loopTarget (sampleFunction.codeEnd loopTarget) = 65558 := by
      decide
    rw [hend] at hhigh
    simp only [sampleFunction] at hlow
    rw [loopTarget_insns] at hinsn
    simp only [List.mem_cons, List.not_mem_nil, or_false] at hinsn
    rcases hinsn with rfl | rfl | rfl
    · cases ha
    · obtain rfl : 4096 = a := Option.some.inj ha
      omega
    · obtain rfl : 4117 = a := Option.some.inj ha
      omega
  · intro insn hinsn hjump a ha hin
    rw [loopTarget_insns] at hinsn ⊢
    simp only [List.mem_cons, List.not_mem_nil, or_false] at hinsn
    rcases hinsn with rfl | rfl | rfl
    · cases ha
    · obtain rfl : 4096 = a := Option.some.inj ha
      decide
    · obtain rfl : 4117 = a := Option.some.inj ha
      exact absurd hin (by decide)

/-- A conditional jump goes back, and a short jump leaves the function. -/
theorem relocates_iff_loop :
    sampleFunction.Relocatable loopTarget ∧ sampleFunction.Relocates loopTarget := by
  refine ⟨loopTarget_relocatable, (relocates_iff loopTarget_relocatable).mpr (Or.inr ⟨?_, ?_⟩)⟩
  · intro insn hinsn hplain
    have hnone : ∀ insn ∈ sampleFunction.insns loopTarget, isPlain insn = false := by decide
    rw [hnone insn hinsn] at hplain
    cases hplain
  · intro insn hinsn hjump a ha hin
    rw [loopTarget_insns] at hinsn
    simp only [List.mem_cons, List.not_mem_nil, or_false] at hinsn
    rcases hinsn with rfl | rfl | rfl
    · cases ha
    · obtain rfl : 4096 = a := Option.some.inj ha
      decide
    · obtain rfl : 4117 = a := Option.some.inj ha
      exact absurd hin (by decide)

/-- The code `je` near to another function and `ret`. -/
def jccTarget : Target where
  arch := .x86_64
  byte a := [0x0f, 0x84, 0xfa, 0x0f, 0x00, 0x00, 0xc3].getD (a - 4096) 0
  decode a :=
    if a = 4096 then sampleInsn a [0x0f, 0x84, 0xfa, 0x0f, 0x00, 0x00] 2
    else sampleInsn a [0xc3] 0
  wrapper := 131072

theorem jccTarget_insns : sampleFunction.insns jccTarget =
    [sampleInsn 4096 [0x0f, 0x84, 0xfa, 0x0f, 0x00, 0x00] 2, sampleInsn 4102 [0xc3] 0] := by
  decide

theorem jccTarget_relocatable : sampleFunction.Relocatable jccTarget := by
  refine ⟨fun a => ?_, by decide, by decide, ?_, by decide, by decide, by decide,
    Or.inl (by decide), ?_, ?_⟩
  · simp only [jccTarget]
    split_ifs <;> rfl
  · intro insn hinsn
    rw [jccTarget_insns] at hinsn
    simp only [List.mem_cons, List.not_mem_nil, or_false] at hinsn
    rcases hinsn with rfl | rfl <;> constructor <;> decide
  · intro insn hinsn a ha x hlow hhigh
    have hend : sampleFunction.place jccTarget (sampleFunction.codeEnd jccTarget) = 65557 := by
      decide
    rw [hend] at hhigh
    simp only [sampleFunction] at hlow
    rw [jccTarget_insns] at hinsn
    simp only [List.mem_cons, List.not_mem_nil, or_false] at hinsn
    rcases hinsn with rfl | rfl
    · obtain rfl : 8192 = a := Option.some.inj ha
      omega
    · cases ha
  · intro insn hinsn hjump a ha hin
    rw [jccTarget_insns] at hinsn
    simp only [List.mem_cons, List.not_mem_nil, or_false] at hinsn
    rcases hinsn with rfl | rfl
    · obtain rfl : 8192 = a := Option.some.inj ha
      exact absurd hin (by decide)
    · cases ha

/-- The copy of a conditional near jump leads to another place. -/
theorem not_relocates_jcc :
    ¬ ∀ target func, Function.Relocatable target func → Function.Relocates target func := by
  intro h
  obtain ⟨result, hresult, hflow⟩ := h jccTarget sampleFunction jccTarget_relocatable
  obtain ⟨r, hr, hinsns, hcopies⟩ :=
    jccTarget_relocatable.instrumentFunction_eq (by decide : ¬ sampleFunction.size < 5)
  rw [hr] at hresult
  cases hresult
  have hmovable := (preservesFlow_iff jccTarget_relocatable ⟨hinsns, hcopies⟩).mp (hflow r rfl)
  have hinsn : sampleInsn 4096 [0x0f, 0x84, 0xfa, 0x0f, 0x00, 0x00] 2 ∈
      sampleFunction.insns jccTarget := by
    rw [jccTarget_insns]
    exact List.mem_cons_self
  exact absurd (hmovable.plain _ hinsn rfl 8192 (by decide)) (by decide)

end Samples

end CallInject
end MemRw
end KedrAux
