import KedrAux.MemRw.ControlFlow
import Mathlib.Data.List.TakeWhile

/-!
# The detour buffer

The size of the buffer is estimated from the code of all functions, each of them gets a place in the
buffer, and then their instrumented copies are put there.  The estimate walks over the zeros at the
end of a function, the copying stops before them.
-/

namespace KedrAux
namespace MemRw
namespace CallInject

open Tiling

/-- A function with the size of its instrumented copy, which is an estimate here. -/
structure DetourFunction extends Function where
  instrumentedSize : Nat
deriving DecidableEq

/-- Alignment of the start addresses of the instrumented functions. -/
def kedrFuncAlign : Nat := 0x10

def kedrAlignValue (val : Nat) : Nat := (val + kedrFuncAlign - 1) / kedrFuncAlign * kedrFuncAlign

/-- Estimate of the size of the instrumented instruction. -/
def Function.insnSize (arch : Arch) (func : Function) (insn : Insn) : Nat :=
  let outside := !func.contains (jumpAddr arch insn)
  -- jcc short
  if insn.opcode ≥ 0x70 ∧ insn.opcode ≤ 0x7f then if outside then 6 else insn.length
  -- jmp short
  else if insn.opcode = 0xeb then if outside then 5 else insn.length
  -- j*cxz
  else if insn.opcode = 0xe3 then if outside then 9 else insn.length
  else insn.length

def addInsnSize (arch : Arch) (func : Function) (size : Nat) (insn : Insn) : Nat :=
  size + func.insnSize arch insn

/-- Estimate of the size of the instrumented function; zero if its code is not decoded. -/
def estimateFuncBufSize (target : Target) (func : Function) : Nat :=
  match doForEachInsn (fun insn => insn.length) target.decode (addInsnSize target.arch func)
      func.size func.addr (func.addr + func.size) 0 with
  | .ok size => size + (entryCallPattern target.arch).length
  | .error _ => 0

/-- Add the sizes of the functions to the total size, which becomes zero on a failure. -/
def addFuncSizes (target : Target) : Nat → List DetourFunction → Nat × List DetourFunction
  | totalSize, [] => (totalSize, [])
  | totalSize, pos :: funcs =>
    let size := estimateFuncBufSize target pos.toFunction
    if size = 0 then (0, pos :: funcs)
    else
      let r := addFuncSizes target (totalSize + kedrAlignValue size) funcs
      (r.1, { pos with instrumentedSize := size } :: r.2)

/-- Total size of the buffer, with extra bytes for its alignment, and the sizes of the functions. -/
def estimateDetourBufSize (target : Target) (funcs : List DetourFunction) :
    Nat × List DetourFunction :=
  addFuncSizes target kedrFuncAlign funcs

def placeFuncs : Nat → List DetourFunction → List DetourFunction
  | _, [] => []
  | addr, pos :: funcs =>
    { pos with instrumentedAddr := addr } ::
      placeFuncs (addr + kedrAlignValue pos.instrumentedSize) funcs

def setInstrumentedAddrs (dbuf : Nat) (funcs : List DetourFunction) : List DetourFunction :=
  placeFuncs (kedrAlignValue dbuf) funcs

/-- The architecture, the decoder, which reads the memory, and the function called on entry. -/
structure Machine where
  arch : Arch
  decoder : (Nat → Byte) → Nat → Insn
  wrapper : Nat

def Machine.target (machine : Machine) (mem : Nat → Byte) : Target :=
  ⟨machine.arch, mem, machine.decoder mem, machine.wrapper⟩

def store (mem : Nat → Byte) (addr : Nat) (bytes : List Byte) (a : Nat) : Byte :=
  if addr ≤ a ∧ a < addr + bytes.length then bytes.getD (a - addr) 0 else mem a

/-- The copies, made one after another until a function fails; the beginning of each copied
function is overwritten.  The buffer is not a part of the memory with the code. -/
def instrumentFunctions (machine : Machine) :
    (Nat → Byte) → List DetourFunction → List (DetourFunction × Instrumented)
  | _, [] => []
  | mem, f :: funcs =>
    match instrumentFunction (machine.target mem) f.toFunction with
    | .error _ => []
    | .ok none => instrumentFunctions machine mem funcs
    | .ok (some r) => (f, r) :: instrumentFunctions machine (store mem f.addr r.jump) funcs

/-- Total size of the detour buffer at the given address, and the copies in it. -/
def kedrProcessTarget (machine : Machine) (mem : Nat → Byte) (dbuf : Nat)
    (funcs : List DetourFunction) : Except Errno (Nat × List (DetourFunction × Instrumented)) :=
  let r := estimateDetourBufSize (machine.target mem) funcs
  if r.1 = 0 then .error .efault
  else .ok (r.1, instrumentFunctions machine mem (setInstrumentedAddrs dbuf r.2))

/-- What the estimate is for: each copy is within its own part of the buffer. -/
structure LargeEnough (dbuf totalSize : Nat) (copies : List (DetourFunction × Instrumented)) :
    Prop where
  size : ∀ c ∈ copies, c.2.instrumentedSize ≤ c.1.instrumentedSize
  aligned : ∀ c ∈ copies, kedrFuncAlign ∣ c.1.instrumentedAddr
  disjoint : copies.Pairwise fun c d =>
    c.1.instrumentedAddr + c.2.instrumentedSize ≤ d.1.instrumentedAddr
  inside : ∀ c ∈ copies, dbuf ≤ c.1.instrumentedAddr ∧
    c.1.instrumentedAddr + c.2.instrumentedSize ≤ dbuf + totalSize

section Functions

variable (target : Target) (func : Function)

/-- All instructions of the function, with those in the zeros at its end. -/
def Function.allInsns : List Insn :=
  insnsFrom (fun insn => insn.length) target.decode func.size func.addr (func.addr + func.size)

/-- The zeros at the end of the function begin here, whether or not they belong to an
instruction. -/
def Function.zerosAddr : Nat := func.addr + func.trimmed target

/-- The instructions that begin in the zeros at the end of the function. -/
def Function.padding : List Insn :=
  (func.allInsns target).filter fun insn => func.zerosAddr target ≤ insn.kaddr

/-- The jump leads to zeros at the end of the function that come after its own code. -/
def Function.leadsToZeros (insn : Insn) : Bool :=
  func.zerosAddr target ≤ jumpAddr target.arch insn &&
    insn.kaddr + insn.length ≤ jumpAddr target.arch insn &&
    jumpAddr target.arch insn < func.addr + func.size

/-- How many bytes an instruction may take above its estimate: `j*cxz` that leads outside is as long
as it was, and short jumps to the zeros at the end become near ones. -/
def Function.excess (insn : Insn) : Int :=
  if insn.opcode = 0xe3 then
    if func.contains (jumpAddr target.arch insn) then 0 else (insn.length : Int) - 9
  else if isJmpShort insn && func.leadsToZeros target insn then 5 - (insn.length : Int)
  else if isJccShort insn && func.leadsToZeros target insn then 6 - (insn.length : Int)
  else 0

/-- The bytes that some instructions take above their estimates are not more than the others take
below and the padding takes. -/
def Function.Compensated : Prop :=
  ((func.insns target).map (func.excess target)).sum ≤
    ((func.padding target).map fun insn => (insn.length : Int)).sum

instance : Decidable (func.Compensated target) :=
  inferInstanceAs (Decidable (_ ≤ _))

/-- The function is a sequence of instructions, which do not go past its end except in the padding,
and the references of which are fields of 32 bits. -/
structure Function.Decodable : Prop where
  length : ∀ insn ∈ func.allInsns target, insn.length ≠ 0
  inside : ∀ insn ∈ func.insns target, insn.kaddr + insn.length ≤ func.addr + func.size
  near : ∀ insn ∈ func.insns target, isCallOrJmpNear insn = true →
    insn.immediateOffset + 4 ≤ insn.length
  rip : ∀ insn ∈ func.insns target, insn.ripRelative = true →
    insn.displacementOffset + 4 ≤ insn.length

/-- Copying of the function does not fail: it is too short to be copied, or it has code. -/
def Function.succeeds : Bool := func.size < 5 || func.trimmed target ≠ 0

end Functions

/-- What is known of the decoder: it looks at the bytes of the instruction only, and a zero byte
begins an instruction with opcode zero. -/
structure Machine.Decodes (machine : Machine) : Prop where
  kaddr : ∀ mem a, (machine.decoder mem a).kaddr = a
  bytes : ∀ mem a, (machine.decoder mem a).bytes =
    (List.range (machine.decoder mem a).length).map fun i => mem (a + i)
  reads : ∀ mem mem' a, (∀ i < (machine.decoder mem a).length, mem' (a + i) = mem (a + i)) →
    machine.decoder mem' a = machine.decoder mem a
  zero : ∀ mem a, mem a = 0 → (machine.decoder mem a).opcode = 0

/-- The functions do not overlap, and each of them is a sequence of instructions. -/
structure Machine.Loaded (machine : Machine) (mem : Nat → Byte) (funcs : List DetourFunction) :
    Prop where
  decodable : ∀ f ∈ funcs, f.toFunction.Decodable (machine.target mem)
  apart : funcs.Pairwise fun f g => f.addr + f.size ≤ g.addr ∨ g.addr + g.size ≤ f.addr

section Walks

variable {σ ι : Type} {kaddr length : ι → Nat} {decode : Nat → ι}

theorem mem_insnsFrom (hdecode : ∀ a, kaddr (decode a) = a) {n a e : Nat} {insn : ι}
    (h : insn ∈ insnsFrom length decode n a e) :
    a ≤ kaddr insn ∧ kaddr insn < e ∧ decode (kaddr insn) = insn := by
  induction n generalizing a with
  | zero => cases h
  | succ n ih =>
    rw [insnsFrom] at h
    split_ifs at h with hlt
    · rcases List.mem_cons.mp h with rfl | hin
      · rw [hdecode]
        exact ⟨Nat.le_refl a, hlt, rfl⟩
      · obtain ⟨hle, hend⟩ := ih hin
        exact ⟨by omega, hend⟩
    · cases h

theorem insnsFrom_eq_filter (hdecode : ∀ a, kaddr (decode a) = a) {n n' a e e' : Nat} (he : e ≤ e')
    (hn : e ≤ a + n) (hn' : e' ≤ a + n')
    (h : ∀ insn ∈ insnsFrom length decode n' a e', length insn ≠ 0) :
    insnsFrom length decode n a e =
      (insnsFrom length decode n' a e').filter fun insn => kaddr insn < e := by
  induction n' generalizing n a with
  | zero =>
    have hnil : insnsFrom length decode n a e = [] := by
      cases n with
      | zero => rfl
      | succ n => rw [insnsFrom, if_neg (by omega)]
    rw [hnil]
    rfl
  | succ n' ih =>
    by_cases hlt : a < e
    · obtain ⟨m, rfl⟩ : ∃ m, n = m + 1 := ⟨n - 1, by omega⟩
      rw [insnsFrom, if_pos hlt]
      rw [insnsFrom, if_pos (by omega)] at h ⊢
      have hpos := h _ List.mem_cons_self
      rw [List.filter_cons_of_pos (by simpa [hdecode] using hlt)]
      congr 1
      exact ih (by omega) (by omega) fun insn hinsn => h insn (List.mem_cons_of_mem _ hinsn)
    · have hnil : insnsFrom length decode n a e = [] := by
        cases n with
        | zero => rfl
        | succ n => rw [insnsFrom, if_neg hlt]
      rw [hnil]
      symm
      refine List.filter_eq_nil_iff.mpr fun insn hinsn => ?_
      have := (mem_insnsFrom hdecode hinsn).1
      simp only [decide_eq_true_eq, not_lt]
      omega

theorem doForEachInsn_congr (hdecode : ∀ a, kaddr (decode a) = a) {decode' : Nat → ι}
    (proc : σ → ι → σ) {n a e : Nat} (s : σ)
    (h : ∀ insn ∈ insnsFrom length decode n a e, decode' (kaddr insn) = insn) :
    doForEachInsn length decode' proc n a e s = doForEachInsn length decode proc n a e s := by
  induction n generalizing a s with
  | zero => rfl
  | succ n ih =>
    rw [doForEachInsn, doForEachInsn]
    rw [insnsFrom] at h
    by_cases hlt : a < e
    · rw [if_pos hlt] at h
      have hhead := h _ List.mem_cons_self
      rw [hdecode] at hhead
      rw [if_pos hlt, if_pos hlt, hhead]
      by_cases hzero : length (decode a) = 0
      · simp only [hzero, if_true]
      · simp only [hzero, if_false]
        exact ih _ fun insn hinsn => h insn (List.mem_cons_of_mem _ hinsn)
    · rw [if_neg hlt, if_neg hlt]

end Walks

theorem skipZeros_le (byte : Nat → Byte) (addr size : Nat) : skipZeros byte addr size ≤ size := by
  induction size with
  | zero => exact Nat.le_refl 0
  | succ size ih =>
    rw [skipZeros]
    split_ifs
    · exact Nat.le_succ_of_le ih
    · exact Nat.le_refl _

variable {byte : Nat → Byte} {addr size : Nat}

theorem eq_zero_of_skipZeros_le {i : Nat} (hle : skipZeros byte addr size ≤ i) (hlt : i < size) :
    byte (addr + i) = 0 := by
  induction size with
  | zero => omega
  | succ size ih =>
    rw [skipZeros] at hle
    split_ifs at hle with hzero
    · rcases Nat.lt_succ_iff_lt_or_eq.mp hlt with hlt | rfl
      · exact ih hle hlt
      · exact hzero
    · omega

theorem skipZeros_congr {byte' : Nat → Byte} (h : ∀ i < size, byte' (addr + i) = byte (addr + i)) :
    skipZeros byte' addr size = skipZeros byte addr size := by
  induction size with
  | zero => rfl
  | succ size ih =>
    rw [skipZeros, skipZeros, h size (Nat.lt_succ_self _),
      ih fun i hi => h i (Nat.lt_succ_of_lt hi)]

variable {machine : Machine} {mem : Nat → Byte}

section OneFunction

variable {func : Function}

/-- The function as `do_process_insn` sees it at the given instruction. -/
def Function.seenAt (target : Target) (func : Function) (insn : Insn) : Function :=
  { func with size := max (func.trimmed target) (insn.kaddr + insn.length - func.addr) }

/-- Number of bytes that the instruction takes in the copy. -/
def Function.copiedLength (target : Target) (func : Function) (insn : Insn) : Nat :=
  (emit target.arch (func.seenAt target insn) insn 0).code.length

variable {insn : Insn} {a : Nat} {target : Target}

theorem emit_length {arch : Arch} (hbytes : insn.bytes.length = insn.length) (dest : Nat) :
    (emit arch func insn dest).code.length =
      if isJmpShort insn then if func.contains (jumpAddr arch insn) then insn.length else 5
      else if isJccShort insn then if func.contains (jumpAddr arch insn) then insn.length else 6
      else insn.length := by
  have hu32 : ∀ value : BitVec (8 * 4), (u32Bytes value).length = 4 := by
    intro value
    simp [u32Bytes]
  rw [emit]
  simp only [isJmpShort, isJccShort, decide_eq_true_eq, Bool.and_eq_true]
  by_cases hjmp : insn.opcode = 0xeb
  · rw [if_pos hjmp, if_pos hjmp, processJmpShort, processShort]
    by_cases hin : func.contains (jumpAddr arch insn) = true
    · simp [hin, hbytes]
    · simp [hin, hu32]
  · rw [if_neg hjmp, if_neg hjmp]
    by_cases hjcc : insn.opcode ≥ 0x70 ∧ insn.opcode ≤ 0x7f
    · rw [if_pos hjcc, if_pos hjcc, processJccShort, processShort]
      by_cases hin : func.contains (jumpAddr arch insn) = true
      · simp [hin, hbytes]
      · simpa [hin, hu32] using hjmp
    · rw [if_neg hjcc, if_neg hjcc, if_neg hjmp, copyAndFixupInsn]
      dsimp only
      split_ifs <;> simp [fixup, hbytes]

theorem Function.trimmed_le (target : Target) (func : Function) : func.trimmed target ≤ func.size :=
  skipZeros_le _ _ _

@[simp] theorem Function.contains_iff :
    func.contains a = true ↔ func.addr ≤ a ∧ a < func.addr + func.size := by
  simp [Function.contains]

theorem leadsToZeros_eq (target : Target) (func : Function) (insn : Insn) :
    func.leadsToZeros target insn = (func.contains (jumpAddr target.arch insn) &&
      !(func.seenAt target insn).contains (jumpAddr target.arch insn)) := by
  rw [Bool.eq_iff_iff, Bool.and_eq_true, Bool.not_eq_true', ← Bool.not_eq_true,
    Function.contains_iff, Function.contains_iff]
  simp only [Function.leadsToZeros, Function.seenAt, Bool.and_eq_true, decide_eq_true_eq]
  rw [Function.zerosAddr]
  omega

theorem contains_of_seenAt (hend : insn.kaddr + insn.length ≤ func.addr + func.size)
    (h : (func.seenAt target insn).contains a = true) : func.contains a = true := by
  have htrimmed := func.trimmed_le target
  rw [Function.contains_iff] at h ⊢
  simp only [Function.seenAt] at h
  omega

theorem copiedLength_eq (hbytes : insn.bytes.length = insn.length)
    (hend : insn.kaddr + insn.length ≤ func.addr + func.size) :
    (func.copiedLength target insn : Int) =
      func.insnSize target.arch insn + func.excess target insn := by
  have hseen : (func.seenAt target insn).contains (jumpAddr target.arch insn) = true →
    func.contains (jumpAddr target.arch insn) = true := contains_of_seenAt hend
  rw [Function.copiedLength, emit_length hbytes, Function.insnSize, Function.excess,
    leadsToZeros_eq]
  generalize func.contains (jumpAddr target.arch insn) = inside at hseen ⊢
  generalize (func.seenAt target insn).contains (jumpAddr target.arch insn) = seen at hseen ⊢
  by_cases hjmp : insn.opcode = 0xeb
  · -- jmp short
    simp only [isJmpShort, isJccShort, hjmp]
    cases inside <;> cases seen <;> simp at hseen ⊢
  · by_cases hjcc : insn.opcode ≥ 0x70 ∧ insn.opcode ≤ 0x7f
    · -- jcc short
      have hne : insn.opcode ≠ 0xe3 := by
        intro heq
        rw [heq] at hjcc
        revert hjcc
        decide
      simp only [isJmpShort, isJccShort, hjmp, hne, hjcc]
      cases inside <;> cases seen <;> simp at hseen ⊢
    · have hnot : isJccShort insn = false := by
        rw [isJccShort, ← Bool.not_eq_true, Bool.and_eq_true]
        simpa using hjcc
      simp only [isJmpShort, hnot, hjmp, hjcc]
      by_cases hjcxz : insn.opcode = 0xe3
      · -- j*cxz, which is copied as it is
        cases inside <;> simp [hjcxz]
      · simp only [hjcxz, if_false]
        simp

def Function.copyStart (target : Target) (func : Function) : State :=
  ⟨{ func with size := func.trimmed target },
    func.instrumentedAddr + (entryCallPattern target.arch).length, []⟩

theorem foldl_doProcessInsn_destAddr {insns : List Insn} {e : Nat} {s : State}
    (htiles : Tiles (fun insn : Insn => insn.kaddr) (fun insn => insn.length) insns a e)
    (hstarts : ∀ insn ∈ insns, insn.kaddr < func.zerosAddr target)
    (hbytes : ∀ insn ∈ insns, insn.bytes.length = insn.length)
    (hs : s.func = { func with size := func.trimmed target }) :
    (insns.foldl (doProcessInsn target.arch) s).destAddr =
      s.destAddr + (insns.map (func.copiedLength target)).sum := by
  induction insns generalizing a s with
  | nil => rfl
  | cons insn insns ih =>
    obtain ⟨hkaddr, hpos, htail⟩ := htiles
    have hseen : (doProcessInsn target.arch s insn).func = func.seenAt target insn := by
      simp only [doProcessInsn, hs, Function.seenAt]
      split_ifs with hlt
      · rw [max_eq_right (Nat.le_of_lt hlt)]
      · rw [max_eq_left (Nat.le_of_not_lt hlt)]
    have hdest : (doProcessInsn target.arch s insn).destAddr =
        s.destAddr + func.copiedLength target insn := by
      have hlength := hbytes insn List.mem_cons_self
      have heq : (doProcessInsn target.arch s insn).destAddr = s.destAddr +
          (emit target.arch (doProcessInsn target.arch s insn).func insn
            s.destAddr).code.length := rfl
      rw [heq, hseen, Function.copiedLength, emit_length hlength, emit_length hlength]
    rw [List.foldl_cons, List.map_cons, List.sum_cons, ← Nat.add_assoc, ← hdest]
    cases insns with
    | nil => rfl
    | cons next insns =>
      -- the instruction ends where the next one begins, so no zeros belong to it
      have hnext : next.kaddr < func.zerosAddr target :=
        hstarts next (List.mem_cons_of_mem _ List.mem_cons_self)
      refine ih htail (fun i hi => hstarts i (List.mem_cons_of_mem _ hi))
        (fun i hi => hbytes i (List.mem_cons_of_mem _ hi)) ?_
      have hend : next.kaddr = a + insn.length := htail.1
      rw [Function.zerosAddr] at hnext
      rw [hseen, Function.seenAt, max_eq_left (by dsimp only at hkaddr; omega)]

section

variable (hm : machine.Decodes)
include hm

@[simp] theorem Machine.Decodes.bytes_length (a : Nat) :
    (machine.decoder mem a).bytes.length = (machine.decoder mem a).length := by
  rw [hm.bytes, List.length_map, List.length_range]

theorem mem_allInsns {insn : Insn}
    (h : insn ∈ func.allInsns (machine.target mem)) :
    func.addr ≤ insn.kaddr ∧ insn.kaddr < func.addr + func.size ∧
      machine.decoder mem insn.kaddr = insn :=
  @mem_insnsFrom Insn (fun insn => insn.kaddr) _ _ (hm.kaddr mem) _ _ _ _ h

theorem insns_eq_filter (hfunc : func.Decodable (machine.target mem)) :
    func.insns (machine.target mem) = (func.allInsns (machine.target mem)).filter
      fun insn => insn.kaddr < func.zerosAddr (machine.target mem) :=
  @insnsFrom_eq_filter Insn (fun insn => insn.kaddr) _ _ (hm.kaddr mem) _ _ _ _ _
    (Nat.add_le_add_left (func.trimmed_le _) _) (Nat.le_refl _) (Nat.le_refl _) hfunc.length

theorem mem_insns (hfunc : func.Decodable (machine.target mem))
    (h : insn ∈ func.insns (machine.target mem)) :
    insn ∈ func.allInsns (machine.target mem) ∧
      insn.kaddr < func.zerosAddr (machine.target mem) := by
  rw [insns_eq_filter hm hfunc] at h
  obtain ⟨hall, hlt⟩ := List.mem_filter.mp h
  exact ⟨hall, of_decide_eq_true hlt⟩

theorem bytes_length_of_mem (h : insn ∈ func.allInsns (machine.target mem)) :
    insn.bytes.length = insn.length := by
  rw [← (mem_allInsns hm h).2.2]
  exact hm.bytes_length _

theorem instrumentFunction_size
    (hfunc : func.Decodable (machine.target mem)) (hsize : ¬func.size < 5)
    (hcode : func.trimmed (machine.target mem) ≠ 0) :
    ∃ r, instrumentFunction (machine.target mem) func = .ok (some r) ∧ r.jump.length = 5 ∧
      r.instrumentedSize = (entryCallPattern machine.arch).length +
        ((func.insns (machine.target mem)).map (func.copiedLength (machine.target mem))).sum := by
  have hlength : ∀ insn ∈ func.insns (machine.target mem), insn.length ≠ 0 :=
    fun insn hinsn => hfunc.length insn (mem_insns hm hfunc hinsn).1
  have hbytes : ∀ insn ∈ func.insns (machine.target mem), insn.bytes.length = insn.length :=
    fun insn hinsn => bytes_length_of_mem hm (mem_insns hm hfunc hinsn).1
  obtain ⟨e, -, htiles, hstarts⟩ := @insnsFrom_tiles Insn (fun insn => insn.kaddr)
    (fun insn => insn.length) (machine.target mem).decode (hm.kaddr mem) _ _ _ (Nat.le_refl _)
    (Nat.lt_add_of_pos_right (Nat.pos_of_ne_zero hcode)) hlength
  have hwalk := doForEachInsn_eq (doProcessInsn (machine.target mem).arch)
    (func.copyStart (machine.target mem)) hlength
  have hdest := foldl_doProcessInsn_destAddr (s := func.copyStart (machine.target mem))
    htiles hstarts hbytes rfl
  rw [← Function.insns] at hwalk
  rw [← Function.insns] at hdest
  generalize (func.insns (machine.target mem)).foldl (doProcessInsn (machine.target mem).arch)
    (func.copyStart (machine.target mem)) = s at hwalk hdest
  have hzeros : skipZeros (machine.target mem).byte func.addr func.size =
    func.trimmed (machine.target mem) := rfl
  refine ⟨⟨s.func, entryCall machine.arch machine.wrapper
      { func with size := func.trimmed (machine.target mem) },
    s.copies, s.destAddr - func.instrumentedAddr,
    0xe9 :: u32Bytes (kedrOffsetFromAddr func.addr 5 func.instrumentedAddr)⟩, ?_, ?_, ?_⟩
  · rw [instrumentFunction, if_neg hsize]
    simp only [hzeros, if_neg hcode]
    rw [← Function.copyStart, hwalk]
    rfl
  · simp [u32Bytes]
  · dsimp only
    rw [hdest, Function.copyStart, Nat.add_assoc, Nat.add_sub_cancel_left]
    rfl

end

theorem foldl_addInsnSize (arch : Arch) (func : Function) (size : Nat) (insns : List Insn) :
    insns.foldl (addInsnSize arch func) size = size + (insns.map (func.insnSize arch)).sum := by
  induction insns generalizing size with
  | nil => rfl
  | cons insn insns ih =>
    rw [List.foldl_cons, ih, addInsnSize, List.map_cons, List.sum_cons, Nat.add_assoc]

theorem estimateFuncBufSize_eq (hfunc : func.Decodable (machine.target mem)) :
    estimateFuncBufSize (machine.target mem) func =
      ((func.allInsns (machine.target mem)).map (func.insnSize machine.arch)).sum +
        (entryCallPattern machine.arch).length := by
  have hwalk := doForEachInsn_eq (addInsnSize machine.arch func) 0 hfunc.length
  rw [foldl_addInsnSize, Nat.zero_add] at hwalk
  have harch : (machine.target mem).arch = machine.arch := rfl
  simp only [estimateFuncBufSize, harch, hwalk]
  rfl

theorem estimateFuncBufSize_ne_zero (hfunc : func.Decodable (machine.target mem)) :
    estimateFuncBufSize (machine.target mem) func ≠ 0 := by
  have hentry : 0 < (entryCallPattern machine.arch).length := by
    cases machine.arch <;> decide
  rw [estimateFuncBufSize_eq hfunc]
  omega

theorem insnSize_of_zero (arch : Arch) (h : insn.opcode = 0) :
    func.insnSize arch insn = insn.length := by
  rw [Function.insnSize, h]
  simp

theorem sum_map_filter {ι : Type} (f : ι → Nat) (p : ι → Bool) (xs : List ι) :
    (xs.map f).sum = ((xs.filter p).map f).sum + ((xs.filter fun x => !p x).map f).sum := by
  rw [← List.sum_append, ← List.map_append]
  exact ((List.filter_append_perm p xs).map f).sum_eq.symm

theorem sum_insnSize (hm : machine.Decodes) (hfunc : func.Decodable (machine.target mem)) :
    ((func.allInsns (machine.target mem)).map (func.insnSize machine.arch)).sum =
      ((func.insns (machine.target mem)).map (func.insnSize machine.arch)).sum +
        ((func.padding (machine.target mem)).map fun insn => insn.length).sum := by
  have hpadding : func.padding (machine.target mem) = (func.allInsns (machine.target mem)).filter
      fun insn => !decide (insn.kaddr < func.zerosAddr (machine.target mem)) := by
    rw [Function.padding]
    refine List.filter_congr fun insn _ => ?_
    rw [← decide_not, decide_eq_decide]
    exact not_lt.symm
  have hsizes : (func.padding (machine.target mem)).map (func.insnSize machine.arch) =
      (func.padding (machine.target mem)).map fun insn => insn.length := by
    refine List.map_congr_left fun insn hinsn => insnSize_of_zero _ ?_
    obtain ⟨hall, hzeros⟩ := List.mem_filter.mp hinsn
    obtain ⟨hle, hlt, hdecode⟩ := mem_allInsns hm hall
    have hzeros' := of_decide_eq_true hzeros
    rw [Function.zerosAddr] at hzeros'
    -- the instruction begins with a zero
    have hbyte : mem (func.addr + (insn.kaddr - func.addr)) = 0 :=
      @eq_zero_of_skipZeros_le mem func.addr func.size _
        (Nat.le_sub_of_add_le' hzeros') (by omega)
    rw [Nat.add_sub_cancel' hle] at hbyte
    rw [← hdecode]
    exact hm.zero mem _ hbyte
  rw [sum_map_filter _ fun insn : Insn =>
    decide (insn.kaddr < func.zerosAddr (machine.target mem)), ← insns_eq_filter hm hfunc,
    ← hpadding, hsizes]

theorem cast_sum_map {ι : Type} (f : ι → Nat) (xs : List ι) :
    ((xs.map f).sum : Int) = (xs.map fun x => (f x : Int)).sum := by
  rw [Nat.cast_list_sum, List.map_map]
  rfl

/-- The copy of a function is not larger than estimated exactly if what some instructions take above
their estimates is compensated. -/
theorem size_le_estimate_iff (hm : machine.Decodes) (hfunc : func.Decodable (machine.target mem))
    {r : Instrumented}
    (hr : r.instrumentedSize = (entryCallPattern machine.arch).length +
      ((func.insns (machine.target mem)).map (func.copiedLength (machine.target mem))).sum) :
    r.instrumentedSize ≤ estimateFuncBufSize (machine.target mem) func ↔
      func.Compensated (machine.target mem) := by
  have hcopied : (((func.insns (machine.target mem)).map
      (func.copiedLength (machine.target mem))).sum : Int) =
      ((func.insns (machine.target mem)).map (func.insnSize machine.arch)).sum +
        ((func.insns (machine.target mem)).map (func.excess (machine.target mem))).sum := by
    rw [cast_sum_map, cast_sum_map, ← List.sum_map_add]
    refine congrArg List.sum (List.map_congr_left fun insn hinsn => ?_)
    exact copiedLength_eq (bytes_length_of_mem hm (mem_insns hm hfunc hinsn).1)
      (hfunc.inside insn hinsn)
  have hpadding := cast_sum_map (fun insn : Insn => insn.length)
    (func.padding (machine.target mem))
  rw [hr, estimateFuncBufSize_eq hfunc, sum_insnSize hm hfunc, Function.Compensated, ← hpadding]
  omega

end OneFunction

section AllFunctions

variable {mem' : Nat → Byte}

theorem instrumentFunction_congr (hm : machine.Decodes) {func : Function}
    (hfunc : func.Decodable (machine.target mem))
    (hmem : ∀ i < func.size, mem' (func.addr + i) = mem (func.addr + i)) :
    instrumentFunction (machine.target mem') func = instrumentFunction (machine.target mem) func := by
  have hzeros : skipZeros (machine.target mem').byte func.addr func.size =
      skipZeros (machine.target mem).byte func.addr func.size := skipZeros_congr hmem
  have hwalk : ∀ s : State, doForEachInsn (fun insn => insn.length) (machine.target mem').decode
      (doProcessInsn machine.arch) (func.trimmed (machine.target mem)) func.addr
      (func.addr + func.trimmed (machine.target mem)) s =
    doForEachInsn (fun insn => insn.length) (machine.target mem).decode
      (doProcessInsn machine.arch) (func.trimmed (machine.target mem)) func.addr
      (func.addr + func.trimmed (machine.target mem)) s := by
    intro s
    refine @doForEachInsn_congr State Insn (fun insn => insn.kaddr) (fun insn => insn.length)
      (machine.target mem).decode (hm.kaddr mem) _ _ _ _ _ s fun insn hinsn => ?_
    obtain ⟨hle, -, hdecode⟩ := mem_allInsns hm (mem_insns hm hfunc hinsn).1
    have hinside := hfunc.inside insn hinsn
    refine (hm.reads mem mem' insn.kaddr fun i hi => ?_).trans hdecode
    rw [hdecode] at hi
    have := hmem (insn.kaddr - func.addr + i) (by omega)
    rwa [← Nat.add_assoc, Nat.add_sub_cancel' hle] at this
  rw [instrumentFunction, instrumentFunction]
  by_cases hsize : func.size < 5
  · rw [if_pos hsize, if_pos hsize]
  · rw [if_neg hsize, if_neg hsize]
    simp only [hzeros]
    by_cases hcode : skipZeros (machine.target mem).byte func.addr func.size = 0
    · rw [if_pos hcode, if_pos hcode]
    · rw [if_neg hcode, if_neg hcode]
      exact congrArg (fun x : Except Errno State => x >>= _) (hwalk _)

def copyOf (target : Target) (f : DetourFunction) : Option (DetourFunction × Instrumented) :=
  match instrumentFunction target f.toFunction with
  | .ok (some r) => some (f, r)
  | _ => none

variable {target : Target} {func : Function}

theorem copyOf_eq_some {f : DetourFunction} {c : DetourFunction × Instrumented} :
    copyOf target f = some c ↔
      c.1 = f ∧ instrumentFunction target f.toFunction = .ok (some c.2) := by
  rw [copyOf]
  constructor
  · intro h
    split at h
    · next r hr =>
        cases h
        exact ⟨rfl, hr⟩
    · cases h
  · rintro ⟨rfl, hr⟩
    rw [hr]

theorem instrumentFunction_short (hsize : func.size < 5) :
    instrumentFunction target func = .ok none := by
  rw [instrumentFunction, if_pos hsize]

theorem instrumentFunction_zeros (hsize : ¬func.size < 5) (hcode : func.trimmed target = 0) :
    instrumentFunction target func = .error .eilseq := by
  rw [instrumentFunction, if_neg hsize]
  exact if_pos hcode

/-- The copies are those of the functions before the first one that fails, as if each function was
copied from the original memory. -/
theorem instrumentFunctions_eq (hm : machine.Decodes) {funcs : List DetourFunction}
    (h : machine.Loaded mem funcs)
    (hmem : ∀ f ∈ funcs, ∀ i < f.size, mem' (f.addr + i) = mem (f.addr + i)) :
    instrumentFunctions machine mem' funcs =
      (funcs.takeWhile fun f => f.succeeds (machine.target mem)).filterMap
        (copyOf (machine.target mem)) := by
  induction funcs generalizing mem' with
  | nil => rfl
  | cons f funcs ih =>
    obtain ⟨hfuncs, hapart⟩ := h
    obtain ⟨hf, hapart'⟩ := List.pairwise_cons.mp hapart
    have hfunc := hfuncs f List.mem_cons_self
    have htail : machine.Loaded mem funcs :=
      ⟨fun g hg => hfuncs g (List.mem_cons_of_mem _ hg), hapart'⟩
    have hcongr := instrumentFunction_congr hm hfunc (hmem f List.mem_cons_self)
    rw [instrumentFunctions, hcongr]
    by_cases hsize : f.size < 5
    · have hrun : instrumentFunction (machine.target mem) f.toFunction = .ok none :=
        instrumentFunction_short hsize
      rw [List.takeWhile_cons_of_pos (by simp [Function.succeeds, hsize]),
        List.filterMap_cons_none (by rw [copyOf, hrun]), hrun]
      exact ih htail fun g hg => hmem g (List.mem_cons_of_mem _ hg)
    · by_cases hcode : f.trimmed (machine.target mem) = 0
      · rw [List.takeWhile_cons_of_neg (by simp [Function.succeeds, hsize, hcode]),
          instrumentFunction_zeros hsize hcode]
        rfl
      · obtain ⟨r, hrun, hjump, -⟩ := instrumentFunction_size hm hfunc hsize hcode
        rw [List.takeWhile_cons_of_pos (by simp [Function.succeeds, hcode]),
          List.filterMap_cons_some (by rw [copyOf, hrun]), hrun]
        refine congrArg _ (ih htail fun g hg i hi => ?_)
        -- only the beginning of this function is overwritten
        have hg' := hf g hg
        rw [store, if_neg (by rw [hjump]; omega)]
        exact hmem g (List.mem_cons_of_mem _ hg) i hi

end AllFunctions

section Layout

theorem le_kedrAlignValue (val : Nat) : val ≤ kedrAlignValue val := by
  rw [kedrAlignValue, kedrFuncAlign]
  omega

theorem kedrAlignValue_lt (val : Nat) : kedrAlignValue val < val + kedrFuncAlign := by
  rw [kedrAlignValue, kedrFuncAlign]
  omega

theorem dvd_kedrAlignValue (val : Nat) : kedrFuncAlign ∣ kedrAlignValue val :=
  Nat.dvd_mul_left _ _

def DetourFunction.code (f : DetourFunction) : Nat × Nat := (f.addr, f.size)

def DetourFunction.partSize (f : DetourFunction) : Nat := kedrAlignValue f.instrumentedSize

theorem placeFuncs_code (addr : Nat) (funcs : List DetourFunction) :
    (placeFuncs addr funcs).map DetourFunction.code = funcs.map DetourFunction.code := by
  induction funcs generalizing addr with
  | nil => rfl
  | cons f funcs ih => rw [placeFuncs, List.map_cons, List.map_cons, ih]; rfl

variable {funcs : List DetourFunction} {g : DetourFunction}

theorem mem_placeFuncs (h : g ∈ placeFuncs addr funcs) :
    ∃ f ∈ funcs, ∃ a, g = { f with instrumentedAddr := a } := by
  induction funcs generalizing addr with
  | nil => cases h
  | cons f funcs ih =>
    rcases List.mem_cons.mp h with rfl | hin
    · exact ⟨f, List.mem_cons_self, addr, rfl⟩
    · obtain ⟨f', hf', ha⟩ := ih hin
      exact ⟨f', List.mem_cons_of_mem _ hf', ha⟩

theorem placeFuncs_tiles (addr : Nat) (h : ∀ f ∈ funcs, f.instrumentedSize ≠ 0) :
    Tiles (fun f : DetourFunction => f.instrumentedAddr) DetourFunction.partSize
      (placeFuncs addr funcs) addr (addr + (funcs.map DetourFunction.partSize).sum) := by
  induction funcs generalizing addr with
  | nil => rfl
  | cons f funcs ih =>
    refine ⟨rfl, ?_, ?_⟩
    · exact Nat.lt_of_lt_of_le (Nat.pos_of_ne_zero (h f List.mem_cons_self))
        (le_kedrAlignValue _)
    · rw [List.map_cons, List.sum_cons, ← Nat.add_assoc]
      exact ih _ fun g hg => h g (List.mem_cons_of_mem _ hg)

theorem placeFuncs_aligned (haddr : kedrFuncAlign ∣ addr) (h : g ∈ placeFuncs addr funcs) :
    kedrFuncAlign ∣ g.instrumentedAddr := by
  induction funcs generalizing addr with
  | nil => cases h
  | cons f funcs ih =>
    rcases List.mem_cons.mp h with rfl | hin
    · exact haddr
    · exact ih (Nat.dvd_add haddr (dvd_kedrAlignValue _)) hin

def estimated (target : Target) (f : DetourFunction) : DetourFunction :=
  { f with instrumentedSize := estimateFuncBufSize target f.toFunction }

theorem addFuncSizes_eq (h : ∀ f ∈ funcs, f.toFunction.Decodable (machine.target mem))
    (totalSize : Nat) :
    addFuncSizes (machine.target mem) totalSize funcs =
      (totalSize + ((funcs.map (estimated (machine.target mem))).map DetourFunction.partSize).sum,
        funcs.map (estimated (machine.target mem))) := by
  induction funcs generalizing totalSize with
  | nil => rfl
  | cons f funcs ih =>
    have hf := estimateFuncBufSize_ne_zero (h f List.mem_cons_self)
    rw [addFuncSizes]
    simp only [if_neg hf, ih fun g hg => h g (List.mem_cons_of_mem _ hg), List.map_cons,
      List.sum_cons, Nat.add_assoc]
    rfl

theorem forall_takeWhile_congr {fs gs : List DetourFunction}
    (h : fs.map DetourFunction.code = gs.map DetourFunction.code) {p : DetourFunction → Bool}
    {Q : DetourFunction → Prop} (hp : ∀ f g, f.code = g.code → p f = p g)
    (hQ : ∀ f g, f.code = g.code → (Q f ↔ Q g)) :
    (∀ f ∈ fs.takeWhile p, Q f) ↔ ∀ g ∈ gs.takeWhile p, Q g := by
  induction fs generalizing gs with
  | nil =>
    rw [List.map_nil, eq_comm, List.map_eq_nil_iff] at h
    rw [h]
  | cons f fs ih =>
    cases gs with
    | nil => cases h
    | cons g gs =>
      obtain ⟨hcode, htail⟩ := List.cons_eq_cons.mp h
      by_cases hpf : p f = true
      · rw [List.takeWhile_cons_of_pos hpf,
          List.takeWhile_cons_of_pos ((hp f g hcode).symm.trans hpf)]
        simp only [List.forall_mem_cons, hQ f g hcode, ih htail]
      · rw [List.takeWhile_cons_of_neg hpf,
          List.takeWhile_cons_of_neg (hp f g hcode ▸ hpf)]

end Layout

section Main

def placed (target : Target) (dbuf : Nat) (funcs : List DetourFunction) : List DetourFunction :=
  setInstrumentedAddrs dbuf (funcs.map (estimated target))

theorem placed_code (target : Target) (dbuf : Nat) (funcs : List DetourFunction) :
    (placed target dbuf funcs).map DetourFunction.code = funcs.map DetourFunction.code := by
  rw [placed, setInstrumentedAddrs, placeFuncs_code, List.map_map]
  rfl

variable {target : Target} {dbuf : Nat} {funcs : List DetourFunction} {g : DetourFunction}
variable {copies : List (DetourFunction × Instrumented)}

theorem mem_placed (h : g ∈ placed target dbuf funcs) :
    (∃ f ∈ funcs, g.code = f.code) ∧
      g.instrumentedSize = estimateFuncBufSize target g.toFunction := by
  obtain ⟨f, hf, a, rfl⟩ := mem_placeFuncs h
  obtain ⟨f', hf', rfl⟩ := List.mem_map.mp hf
  exact ⟨⟨f', hf', rfl⟩, rfl⟩

theorem Function.Decodable.of_code {f : DetourFunction} (h : f.toFunction.Decodable target)
    (hcode : g.code = f.code) :
    g.toFunction.Decodable target := by
  obtain ⟨⟨addr, size, place⟩, estimate⟩ := g
  cases hcode
  exact ⟨h.length, h.inside, h.near, h.rip⟩

theorem placed_loaded (h : machine.Loaded mem funcs) (dbuf : Nat) :
    machine.Loaded mem (placed (machine.target mem) dbuf funcs) := by
  constructor
  · intro g hg
    obtain ⟨⟨f, hf, hcode⟩, -⟩ := mem_placed hg
    exact (h.decodable f hf).of_code hcode
  · have hpair : (funcs.map DetourFunction.code).Pairwise
        fun c d => c.1 + c.2 ≤ d.1 ∨ d.1 + d.2 ≤ c.1 := List.pairwise_map.mpr h.apart
    rw [← placed_code (machine.target mem) dbuf] at hpair
    exact List.pairwise_map.mp hpair

theorem kedrProcessTarget_eq (hm : machine.Decodes) (h : machine.Loaded mem funcs) (dbuf : Nat) :
    kedrProcessTarget machine mem dbuf funcs = .ok
      (kedrFuncAlign +
        ((funcs.map (estimated (machine.target mem))).map DetourFunction.partSize).sum,
      ((placed (machine.target mem) dbuf funcs).takeWhile
        fun f => f.succeeds (machine.target mem)).filterMap (copyOf (machine.target mem))) := by
  have hpos : kedrFuncAlign +
      ((funcs.map (estimated (machine.target mem))).map DetourFunction.partSize).sum ≠ 0 := by
    rw [kedrFuncAlign]
    omega
  rw [kedrProcessTarget, estimateDetourBufSize, addFuncSizes_eq h.decodable]
  simp only [if_neg hpos]
  rw [← placed, instrumentFunctions_eq hm (placed_loaded h dbuf) fun _ _ _ _ => rfl]

theorem mem_copies (hm : machine.Decodes) (h : machine.Loaded mem funcs)
    {c : DetourFunction × Instrumented}
    (hc : c ∈ ((placed (machine.target mem) dbuf funcs).takeWhile
      fun f => f.succeeds (machine.target mem)).filterMap (copyOf (machine.target mem))) :
    c.1 ∈ (placed (machine.target mem) dbuf funcs).takeWhile
      (fun f => f.succeeds (machine.target mem)) ∧ ¬c.1.size < 5 ∧
    (c.2.instrumentedSize ≤ c.1.instrumentedSize ↔
      c.1.toFunction.Compensated (machine.target mem)) := by
  obtain ⟨f, hf, hcopy⟩ := List.mem_filterMap.mp hc
  obtain ⟨rfl, hrun⟩ := copyOf_eq_some.mp hcopy
  have hin := (List.takeWhile_prefix _).subset hf
  have hfunc := (placed_loaded h dbuf).decodable _ hin
  have hsize : ¬c.1.size < 5 := by
    intro hsize
    rw [instrumentFunction_short hsize] at hrun
    cases hrun
  have hcode : c.1.trimmed (machine.target mem) ≠ 0 := by
    intro hcode
    rw [instrumentFunction_zeros hsize hcode] at hrun
    cases hrun
  obtain ⟨r, hr, -, hrsize⟩ := instrumentFunction_size hm hfunc hsize hcode
  rw [hrun] at hr
  cases hr
  refine ⟨hf, hsize, ?_⟩
  rw [(mem_placed hin).2]
  exact size_le_estimate_iff hm hfunc hrsize

theorem largeEnough_of_size (hm : machine.Decodes) (h : machine.Loaded mem funcs) (dbuf : Nat)
    (hcopies : copies = ((placed (machine.target mem) dbuf funcs).takeWhile
      fun f => f.succeeds (machine.target mem)).filterMap (copyOf (machine.target mem)))
    (hsize : ∀ c ∈ copies, c.2.instrumentedSize ≤ c.1.instrumentedSize) :
    LargeEnough dbuf (kedrFuncAlign +
      ((funcs.map (estimated (machine.target mem))).map DetourFunction.partSize).sum) copies := by
  have hnonzero : ∀ f ∈ funcs.map (estimated (machine.target mem)), f.instrumentedSize ≠ 0 := by
    intro g hg
    obtain ⟨f, hf, rfl⟩ := List.mem_map.mp hg
    exact estimateFuncBufSize_ne_zero (h.decodable f hf)
  have htiles := placeFuncs_tiles (kedrAlignValue dbuf) hnonzero
  rw [← setInstrumentedAddrs, ← placed] at htiles
  have hmem : ∀ c ∈ copies, c.1 ∈ placed (machine.target mem) dbuf funcs := by
    intro c hc
    rw [hcopies] at hc
    exact (List.takeWhile_prefix _).subset (mem_copies hm h hc).1
  have hpart : ∀ c ∈ copies, c.2.instrumentedSize ≤ c.1.partSize :=
    fun c hc => Nat.le_trans (hsize c hc) (le_kedrAlignValue _)
  have hstart := le_kedrAlignValue dbuf
  have hstart' := kedrAlignValue_lt dbuf
  constructor
  · exact hsize
  · exact fun c hc => placeFuncs_aligned (dvd_kedrAlignValue dbuf) (hmem c hc)
  · have hpairs : copies.Pairwise fun c d =>
        c.1.instrumentedAddr + c.1.partSize ≤ d.1.instrumentedAddr := by
      rw [hcopies]
      refine List.Pairwise.filterMap _ ?_
        (htiles.pairwise.sublist (List.takeWhile_prefix _).sublist)
      intro f g hle c hc d hd
      rw [(copyOf_eq_some.mp hc).1, (copyOf_eq_some.mp hd).1]
      exact hle
    refine hpairs.imp_of_mem fun hc _ hle => ?_
    have := hpart _ hc
    omega
  · intro c hc
    have hbounds := htiles.mem_bounds (hmem c hc)
    have := hpart c hc
    omega

theorem forall_placed_iff (target : Target) (dbuf : Nat) (funcs : List DetourFunction) :
    (∀ f ∈ (placed target dbuf funcs).takeWhile fun f => f.succeeds target,
      f.size < 5 ∨ f.toFunction.Compensated target) ↔
    ∀ f ∈ funcs.takeWhile fun f => f.succeeds target,
      f.size < 5 ∨ f.toFunction.Compensated target := by
  refine forall_takeWhile_congr (placed_code target dbuf funcs) ?_ ?_
  · rintro ⟨⟨addr, size, place⟩, estimate⟩ g hcode
    cases hcode
    rfl
  · rintro ⟨⟨addr, size, place⟩, estimate⟩ g hcode
    cases hcode
    rfl

theorem largeEnough_copies_iff (hm : machine.Decodes) (h : machine.Loaded mem funcs)
    {totalSize : Nat} (hrun : kedrProcessTarget machine mem dbuf funcs = .ok (totalSize, copies)) :
    LargeEnough dbuf totalSize copies ↔
      ∀ f ∈ funcs.takeWhile fun f => f.succeeds (machine.target mem),
        f.size < 5 ∨ f.toFunction.Compensated (machine.target mem) := by
  rw [kedrProcessTarget_eq hm h dbuf] at hrun
  cases hrun
  rw [← forall_placed_iff (machine.target mem) dbuf]
  constructor
  · intro hlarge f hf
    by_cases hsize : f.size < 5
    · exact .inl hsize
    · right
      have hin := (List.takeWhile_prefix _).subset hf
      have hsucceeds := List.mem_takeWhile_imp hf
      have hcode : f.trimmed (machine.target mem) ≠ 0 := by
        simpa [Function.succeeds, hsize] using hsucceeds
      obtain ⟨r, hcopy, -, -⟩ := instrumentFunction_size hm
        ((placed_loaded h dbuf).decodable f hin) hsize hcode
      have hc : (f, r) ∈ ((placed (machine.target mem) dbuf funcs).takeWhile
          fun f => f.succeeds (machine.target mem)).filterMap (copyOf (machine.target mem)) :=
        List.mem_filterMap.mpr ⟨f, hf, copyOf_eq_some.mpr ⟨rfl, hcopy⟩⟩
      exact (mem_copies hm h hc).2.2.mp (hlarge.size _ hc)
  · intro hall
    refine largeEnough_of_size hm h dbuf rfl fun c hc => ?_
    obtain ⟨hin, hsize, hiff⟩ := mem_copies hm h hc
    exact hiff.mpr ((hall c.1 hin).resolve_left hsize)

/-- The buffer is large enough exactly if in each copied function the excess of some instructions is
compensated. -/
theorem largeEnough_iff (hm : machine.Decodes) {funcs : List DetourFunction}
    (h : machine.Loaded mem funcs) (dbuf : Nat) :
    ∃ totalSize copies, kedrProcessTarget machine mem dbuf funcs = .ok (totalSize, copies) ∧
      (LargeEnough dbuf totalSize copies ↔
        ∀ f ∈ funcs.takeWhile fun f => f.succeeds (machine.target mem),
          f.size < 5 ∨ f.toFunction.Compensated (machine.target mem)) := by
  have hrun := kedrProcessTarget_eq hm h dbuf
  exact ⟨_, _, hrun, largeEnough_copies_iff hm h hrun⟩

end Main

section Samples

def samplePrefixes (mem : Nat → Byte) : Nat → Nat → Nat
  | 0, _ => 0
  | n + 1, a => if mem a = 0x67 then samplePrefixes mem n (a + 1) + 1 else 0

def sampleShort (opcode : Byte) : Bool :=
  opcode = 0xeb || opcode = 0xe3 || (opcode ≥ 0x70 && opcode ≤ 0x7f)

/-- Decoder of short jumps and of instructions of one byte, with prefixes. -/
def sampleDecoder (mem : Nat → Byte) (a : Nat) : Insn :=
  let prefixes := samplePrefixes mem 13 a
  let opcode := mem (a + prefixes)
  let length := prefixes + if sampleShort opcode then 2 else 1
  { kaddr := a
    length := length
    opcode := opcode
    opcode1 := 0
    modrm := 0
    immediateByte := if sampleShort opcode then mem (a + prefixes + 1) else 0
    immediate := 0
    displacement := 0
    bytes := (List.range length).map fun i => mem (a + i)
    immediateOffset := prefixes + 1
    displacementOffset := 0
    ripRelative := false }

def sampleMachine : Machine := ⟨.x86_64, sampleDecoder, 131072⟩

theorem samplePrefixes_congr {mem mem' : Nat → Byte} {n a : Nat}
    (h : ∀ i < samplePrefixes mem n a + 1, mem' (a + i) = mem (a + i)) :
    samplePrefixes mem' n a = samplePrefixes mem n a := by
  induction n generalizing a with
  | zero => rfl
  | succ n ih =>
    rw [samplePrefixes] at h
    rw [samplePrefixes, samplePrefixes, show mem' a = mem a from h 0 (Nat.succ_pos _)]
    split_ifs at h ⊢ with hprefix
    · refine congrArg (· + 1) (ih fun i hi => ?_)
      rw [Nat.add_right_comm, Nat.add_assoc]
      exact h (i + 1) (by omega)
    · rfl

theorem lt_sampleDecoder_length (mem : Nat → Byte) (a : Nat) :
    samplePrefixes mem 13 a < (sampleDecoder mem a).length := by
  simp only [sampleDecoder]
  split_ifs <;> omega

theorem sampleMachine_decodes : sampleMachine.Decodes := by
  refine ⟨fun _ _ => rfl, fun _ _ => rfl, fun mem mem' a h => ?_, fun mem a h => ?_⟩
  · have hlength := lt_sampleDecoder_length mem a
    have hprefixes : samplePrefixes mem' 13 a = samplePrefixes mem 13 a :=
      samplePrefixes_congr fun i hi => h i (Nat.lt_of_lt_of_le hi hlength)
    have hopcode := h _ hlength
    simp only [sampleMachine, sampleDecoder] at h ⊢
    simp only [hprefixes, hopcode, Insn.mk.injEq, MemRw.Insn.mk.injEq, true_and, and_true]
    constructor
    · split_ifs at h ⊢ with hshort
      · exact h (samplePrefixes mem 13 a + 1) (by omega)
      · rfl
    · exact List.map_congr_left fun i hi => h i (List.mem_range.mp hi)
  · have hprefixes : samplePrefixes mem 13 a = 0 := by
      rw [samplePrefixes, if_neg (by rw [h]; decide)]
    simp only [sampleMachine, sampleDecoder]
    rw [hprefixes, Nat.add_zero, h]

/-- Two `nop`, `jrcxz` to another function and `ret`. -/
def plainCode (a : Nat) : Byte := [0x90, 0x90, 0xe3, 0x7f, 0xc3].getD (a - 4096) 0

/-- `jrcxz` with ten prefixes to another function and `ret`. -/
def prefixedCode (a : Nat) : Byte :=
  [0x67, 0x67, 0x67, 0x67, 0x67, 0x67, 0x67, 0x67, 0x67, 0x67, 0xe3, 0x7f, 0xc3].getD (a - 4096) 0

theorem plainCode_loaded : sampleMachine.Loaded plainCode [⟨⟨4096, 5, 0⟩, 0⟩] := by
  refine ⟨fun f hf => ?_, List.pairwise_singleton _ _⟩
  rw [List.mem_singleton.mp hf]
  constructor <;> decide +kernel

theorem prefixedCode_loaded : sampleMachine.Loaded prefixedCode [⟨⟨4096, 13, 0⟩, 0⟩] := by
  refine ⟨fun f hf => ?_, List.pairwise_singleton _ _⟩
  rw [List.mem_singleton.mp hf]
  constructor <;> decide +kernel

/-- One function of 5 bytes without references. -/
theorem largeEnough_iff_plain : ∃ totalSize copies,
    kedrProcessTarget sampleMachine plainCode 65536 [⟨⟨4096, 5, 0⟩, 0⟩] =
      .ok (totalSize, copies) ∧ LargeEnough 65536 totalSize copies := by
  obtain ⟨totalSize, copies, hrun, hiff⟩ :=
    largeEnough_iff sampleMachine_decodes plainCode_loaded 65536
  exact ⟨totalSize, copies, hrun, hiff.mpr (by decide +kernel)⟩

/-- No short jump leads to the padding behind the code of the function. -/
def Function.AvoidsPadding (target : Target) (func : Function) : Prop :=
  ∀ insn ∈ func.insns target, isShort insn = true →
    ¬(func.codeEnd target ≤ jumpAddr target.arch insn ∧
      jumpAddr target.arch insn < func.addr + func.size)

/-- The copy of the jump with prefixes is larger than estimated. -/
theorem not_largeEnough_prefixed :
    ¬∀ (machine : Machine) (mem : Nat → Byte) (funcs : List DetourFunction) (dbuf : Nat),
      machine.Decodes → machine.Loaded mem funcs → funcs ≠ [] →
      (∀ f ∈ funcs, f.toFunction.AvoidsPadding (machine.target mem)) →
      ∀ totalSize copies, kedrProcessTarget machine mem dbuf funcs = .ok (totalSize, copies) →
        LargeEnough dbuf totalSize copies := by
  intro h
  have hrun := kedrProcessTarget_eq sampleMachine_decodes prefixedCode_loaded 65536
  have hlarge := h sampleMachine prefixedCode [⟨⟨4096, 13, 0⟩, 0⟩] 65536 sampleMachine_decodes
    prefixedCode_loaded (List.cons_ne_nil _ _) (by unfold Function.AvoidsPadding; decide +kernel)
    _ _ hrun
  have hall := (largeEnough_copies_iff sampleMachine_decodes prefixedCode_loaded hrun).mp hlarge
  revert hall
  decide +kernel

end Samples

end CallInject
end MemRw
end KedrAux
