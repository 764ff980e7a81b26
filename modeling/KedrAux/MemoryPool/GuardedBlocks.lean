import KedrAux.Lib.Alignment

/-!
# Layout of guarded blocks

A block of memory begins with a header; the object for the caller ends, up to its alignment, where a
page begins that is made inaccessible.
-/

namespace KedrAux
namespace MemoryPool

open Alignment

/-- Sizes on the platform: of `unsigned long` and of a page. -/
structure Platform where
  sizeofLong : Nat
  pageShift : Nat
  long : sizeofLong = 4 ∨ sizeofLong = 8
  page : 6 ≤ pageShift

namespace Platform

variable (platform : Platform)

def sizes : Nat := 2 ^ (8 * platform.sizeofLong)

def pageSize : Nat := 2 ^ platform.pageShift

end Platform

structure Block where
  addr : Nat
  size : Nat
deriving DecidableEq

def mempoolGetAlignment (size : Nat) : Nat :=
  if size ≥ 16 then 16
  else if size ≥ 8 then 8
  else if size ≥ 4 then 4
  else if size ≥ 2 then 2
  else 1

/-- The size with the padding at the end.  For 0, the subtraction and the sum wrap around. -/
def mempoolGetSizeAligned (size align : Nat) : Nat :=
  if size = 0 then 0 else floor align (size - 1) + align

section Addresses

variable (platform : Platform)

/-- Size of `struct mempool_block`, which has a number and two pointers. -/
def sizeofBlock : Nat := 3 * platform.sizeofLong

def pageAddr (addr : Nat) : Nat := floor platform.pageSize addr

def pageAddrRel (addr : Nat) : Nat := addr % platform.pageSize

def mempoolBlockGetAddress (block : Block) : Nat :=
  let objSize := mempoolGetSizeAligned block.size (mempoolGetAlignment block.size)
  let relAddr := pageAddrRel platform (platform.sizes - objSize)
  let firstPageAddr := pageAddr platform block.addr
  let blockRelAddr := pageAddrRel platform block.addr
  let firstPageAddr :=
    if blockRelAddr + sizeofBlock platform ≥ relAddr then firstPageAddr + platform.pageSize
    else firstPageAddr
  (firstPageAddr + relAddr) % platform.sizes

/-- Size of the memory for the caller; it is converted to `int`. -/
def mempoolBlockGetSize (block : Block) : Int := (BitVec.ofNat 32 block.size).toInt

def mempoolBlockGetAddressLocked (block : Block) : Nat :=
  let last := (mempoolBlockGetAddress platform block : Int) + mempoolBlockGetSize block - 1
  (pageAddr platform (last % platform.sizes).toNat + platform.pageSize) % platform.sizes

/-- The functions of the allocator that is wrapped; they return zero if they fail. -/
structure AllocatorOps where
  alloc : Nat → Nat
  allocWithRightAlignment : Option (Nat → Nat)

/-- The blocks that were allocated, and the pages that were made inaccessible. -/
structure Allocator where
  blocks : List Block
  noAccess : List Nat

def mempoolAllocWithRightAlignment (ops : AllocatorOps) (size : Nat) : Nat :=
  match ops.allocWithRightAlignment with
  | some alloc => alloc size
  | none => ops.alloc (size + platform.pageSize - 1)

/-- Size of the memory with the header and the page, up to the end of which it must reach. -/
def realSize (size : Nat) : Nat :=
  sizeofBlock platform + mempoolGetSizeAligned size (mempoolGetAlignment size) + platform.pageSize

def mempoolAllocatorAlloc (ops : AllocatorOps) (allocator : Allocator) (size : Nat) :
    Option Nat × Allocator :=
  let addr := mempoolAllocWithRightAlignment platform ops (realSize platform size)
  if addr = 0 then (none, allocator)
  else
    let block : Block := ⟨addr, size⟩
    (some (mempoolBlockGetAddress platform block),
      ⟨block :: allocator.blocks,
        mempoolBlockGetAddressLocked platform block :: allocator.noAccess⟩)

/-- The object is between the header and the locked page and close to the latter, which is in the
memory that was allocated. -/
structure Guarded (block : Block) (memEnd a locked : Nat) : Prop where
  header : block.addr + sizeofBlock platform ≤ a
  aligned : mempoolGetAlignment block.size ∣ a
  before : a + block.size ≤ locked
  close : locked < a + block.size + 16
  page : platform.pageSize ∣ locked
  inside : locked + platform.pageSize ≤ memEnd

/-- What the conversion of the size to `int` changes, modulo the range of addresses. -/
def conversionLoss (block : Block) : Nat :=
  (((block.size : Int) - mempoolBlockGetSize block) % platform.sizes).toNat

/-- The object does not begin right behind the header, the header does not go on into the page where
the object begins, and the size is not changed by the conversion. -/
def Placeable (block : Block) : Prop :=
  let objSize := mempoolGetSizeAligned block.size (mempoolGetAlignment block.size)
  let headerEnd := pageAddrRel platform block.addr + sizeofBlock platform
  let relAddr := padding platform.pageSize objSize
  relAddr ≠ headerEnd ∧ headerEnd ≤ platform.pageSize + relAddr ∧
    objSize - block.size + conversionLoss platform block < platform.pageSize

instance (block : Block) : Decidable (Placeable platform block) :=
  inferInstanceAs (Decidable (_ ≠ _ ∧ _ ∧ _))

end Addresses

theorem Platform.le_pageSize (platform : Platform) : 2 ^ 6 ≤ platform.pageSize :=
  Nat.pow_le_pow_right Nat.two_pos platform.page

theorem Platform.pageSize_dvd_sizes {platform : Platform}
    (h : platform.pageSize ≤ platform.sizes) : platform.pageSize ∣ platform.sizes :=
  Nat.pow_dvd_pow 2 ((Nat.pow_le_pow_iff_right (by decide)).mp h)

theorem mempoolGetAlignment_dvd (size : Nat) : mempoolGetAlignment size ∣ 16 := by
  rw [mempoolGetAlignment]
  split_ifs <;> decide

theorem mempoolGetAlignment_pos (size : Nat) : 0 < mempoolGetAlignment size :=
  Nat.pos_of_dvd_of_pos (mempoolGetAlignment_dvd size) (by decide)

theorem Platform.alignment_dvd (platform : Platform) (size : Nat) :
    mempoolGetAlignment size ∣ platform.pageSize := by
  have hshift : 4 ≤ platform.pageShift := Nat.le_trans (by decide) platform.page
  exact Nat.dvd_trans (mempoolGetAlignment_dvd size) (Nat.pow_dvd_pow 2 hshift)

def Block.objSize (block : Block) : Nat :=
  mempoolGetSizeAligned block.size (mempoolGetAlignment block.size)

theorem Block.objSize_bounds {block : Block} (h : 1 ≤ block.size) :
    block.size ≤ block.objSize ∧ block.objSize < block.size + 16 := by
  have hlt := lt_floor_add (mempoolGetAlignment_pos block.size) (block.size - 1)
  have hle := floor_le (mempoolGetAlignment block.size) (block.size - 1)
  have halign := Nat.le_of_dvd (by decide) (mempoolGetAlignment_dvd block.size)
  rw [Block.objSize, mempoolGetSizeAligned, if_neg (Nat.ne_of_gt h)]
  omega

theorem Block.alignment_dvd_objSize (block : Block) :
    mempoolGetAlignment block.size ∣ block.objSize := by
  rw [Block.objSize, mempoolGetSizeAligned]
  split_ifs
  · exact Nat.dvd_zero _
  · exact Nat.dvd_add (dvd_floor _ _) (Nat.dvd_refl _)

section Block

variable {platform : Platform} {block : Block}

/-- The memory of a block is a range of addresses, and the caller has asked for something. -/
structure Fits (platform : Platform) (block : Block) : Prop where
  size : 1 ≤ block.size
  range : block.addr + (realSize platform block.size + platform.pageSize - 1) ≤ platform.sizes

/-- Offset of the end of the header on the page where the header begins. -/
def headerEnd (platform : Platform) (block : Block) : Nat :=
  pageAddrRel platform block.addr + sizeofBlock platform

def relAddr (platform : Platform) (block : Block) : Nat :=
  padding platform.pageSize block.objSize

theorem Platform.pageSize_pos (platform : Platform) : 0 < platform.pageSize :=
  Nat.two_pow_pos _

section

variable (h : Fits platform block)
include h

theorem Fits.dvd_sizes : platform.pageSize ∣ platform.sizes := by
  refine Platform.pageSize_dvd_sizes ?_
  have hrange := h.range
  have hpage := platform.pageSize_pos
  rw [realSize] at hrange
  omega

theorem getAddress_eq :
    mempoolBlockGetAddress platform block = floor platform.pageSize block.addr +
      (if headerEnd platform block ≥ relAddr platform block then platform.pageSize else 0) +
      relAddr platform block := by
  have hrange := h.range
  have hpage := platform.pageSize_pos
  have hobj : block.objSize ≤ platform.sizes := by
    rw [realSize, ← Block.objSize] at hrange
    omega
  have hrel : pageAddrRel platform (platform.sizes - block.objSize) = relAddr platform block :=
    sub_mod_eq_padding hpage h.dvd_sizes hobj
  have hlt := padding_lt hpage block.objSize
  have hfloor := floor_add_mod platform.pageSize block.addr
  have hpos := (Block.objSize_bounds h.size).1
  have hsize := h.size
  rw [mempoolBlockGetAddress, ← Block.objSize]
  simp only [hrel, pageAddr]
  rw [← headerEnd]
  rw [realSize, ← Block.objSize] at hrange
  rw [← relAddr] at hlt
  split_ifs with hnext
  · rw [headerEnd, pageAddrRel] at hnext
    exact Nat.mod_eq_of_lt (by omega)
  · rw [Nat.add_zero]
    exact Nat.mod_eq_of_lt (by omega)

theorem dvd_getAddress_add :
    platform.pageSize ∣ mempoolBlockGetAddress platform block + block.objSize := by
  have hrel := dvd_add_padding platform.pageSize_pos block.objSize
  rw [← relAddr] at hrel
  rw [getAddress_eq h, Nat.add_assoc _ (relAddr platform block),
    Nat.add_comm (relAddr platform block)]
  refine Nat.dvd_add (Nat.dvd_add (dvd_floor _ _) ?_) hrel
  split_ifs
  · exact Nat.dvd_refl _
  · exact Nat.dvd_zero _

theorem getAddress_aligned :
    mempoolGetAlignment block.size ∣ mempoolBlockGetAddress platform block :=
  (Nat.dvd_add_left block.alignment_dvd_objSize).mp
    (Nat.dvd_trans (platform.alignment_dvd block.size) (dvd_getAddress_add h))

theorem getAddress_add_lt :
    mempoolBlockGetAddress platform block + block.objSize < platform.sizes := by
  have hrange := h.range
  have hpage := platform.le_pageSize
  have hlt := padding_lt platform.pageSize_pos block.objSize
  have hfloor := floor_add_mod platform.pageSize block.addr
  rw [realSize, ← Block.objSize] at hrange
  rw [← relAddr] at hlt
  rw [getAddress_eq h]
  split_ifs with hnext
  · rw [headerEnd, pageAddrRel] at hnext
    omega
  · omega

end

theorem Platform.int_dvd_sizes (platform : Platform) : 2 ^ 32 ∣ platform.sizes := by
  rw [Platform.sizes]
  rcases platform.long with h | h
  · rw [h]
  · rw [h]
    decide

theorem getSize_emod (block : Block) :
    mempoolBlockGetSize block % 2 ^ 32 = (block.size : Int) % 2 ^ 32 := by
  rw [mempoolBlockGetSize, BitVec.toInt_ofNat']
  exact Int.bmod_emod

theorem dvd_conversionLoss (platform : Platform) (block : Block) :
    2 ^ 32 ∣ conversionLoss platform block := by
  have hsub : (2 ^ 32 : Int) ∣ (block.size : Int) - mempoolBlockGetSize block :=
    Int.dvd_of_emod_eq_zero (Int.emod_eq_emod_iff_emod_sub_eq_zero.mp (getSize_emod block).symm)
  have hsizes : (2 ^ 32 : Int) ∣ platform.sizes := by
    exact_mod_cast Int.natCast_dvd_natCast.mpr platform.int_dvd_sizes
  have hpos : (0 : Int) < platform.sizes := by
    exact_mod_cast Nat.two_pow_pos _
  have hmod : (2 ^ 32 : Int) ∣
      ((block.size : Int) - mempoolBlockGetSize block) % platform.sizes := by
    rw [Int.dvd_iff_emod_eq_zero, Int.emod_emod_of_dvd _ hsizes]
    exact Int.emod_eq_zero_of_dvd hsub
  rw [conversionLoss, ← Int.natCast_dvd_natCast,
    Int.toNat_of_nonneg (Int.emod_nonneg _ (Int.ne_of_gt hpos))]
  exact_mod_cast hmod

theorem conversionLoss_lt (platform : Platform) (block : Block) :
    conversionLoss platform block < platform.sizes := by
  have hpos : (0 : Int) < platform.sizes := by
    exact_mod_cast Nat.two_pow_pos _
  have hlt := Int.emod_lt_of_pos ((block.size : Int) - mempoolBlockGetSize block) hpos
  rw [conversionLoss]
  omega

/-- The address of the last byte as it is computed: the loss is subtracted modulo the range of
addresses. -/
theorem last_eq (h : Fits platform block) :
    (((mempoolBlockGetAddress platform block : Int) + mempoolBlockGetSize block - 1) %
        platform.sizes).toNat =
      if conversionLoss platform block ≤ mempoolBlockGetAddress platform block + block.size - 1 then
        mempoolBlockGetAddress platform block + block.size - 1 - conversionLoss platform block
      else mempoolBlockGetAddress platform block + block.size - 1 + platform.sizes -
        conversionLoss platform block := by
  have hsize := h.size
  have hbounds := Block.objSize_bounds h.size
  have hend := getAddress_add_lt h
  have hloss := conversionLoss_lt platform block
  have hpos : (0 : Int) < platform.sizes := by
    exact_mod_cast Nat.two_pow_pos _
  have hmod : (((mempoolBlockGetAddress platform block : Int) + mempoolBlockGetSize block - 1) %
      platform.sizes) = ((mempoolBlockGetAddress platform block : Int) + block.size - 1 -
        conversionLoss platform block) % platform.sizes := by
    have hcast : (conversionLoss platform block : Int) =
        ((block.size : Int) - mempoolBlockGetSize block) % platform.sizes := by
      rw [conversionLoss, Int.toNat_of_nonneg (Int.emod_nonneg _ (Int.ne_of_gt hpos))]
    rw [hcast, Int.sub_emod_emod]
    congr 1
    omega
  rw [hmod]
  generalize mempoolBlockGetAddress platform block = a at hend ⊢
  generalize conversionLoss platform block = d at hloss ⊢
  split_ifs with hle
  · rw [Int.emod_eq_of_lt (by omega) (by omega)]
    omega
  · have hadd : ((a : Int) + block.size - 1 - d) % platform.sizes =
        ((a : Int) + block.size - 1 - d + platform.sizes) % platform.sizes := by
      rw [Int.add_emod_right]
    rw [hadd, Int.emod_eq_of_lt (by omega) (by omega)]
    omega

/-- The locked page begins at the end of the object exactly if the conversion of the size does not
move the last byte to another page. -/
theorem locked_eq_iff (h : Fits platform block) :
    mempoolBlockGetAddressLocked platform block =
        mempoolBlockGetAddress platform block + block.objSize ↔
      block.objSize - block.size + conversionLoss platform block < platform.pageSize := by
  have hbounds := Block.objSize_bounds h.size
  have hsize := h.size
  have hend := getAddress_add_lt h
  have hpage := platform.le_pageSize
  have hdvd := dvd_getAddress_add h
  have hloss := conversionLoss_lt platform block
  obtain ⟨k, hk⟩ := dvd_conversionLoss platform block
  obtain ⟨j, hj⟩ := platform.int_dvd_sizes
  have hle : platform.pageSize ≤ mempoolBlockGetAddress platform block + block.objSize :=
    Nat.le_of_dvd (by omega) hdvd
  rw [mempoolBlockGetAddressLocked, pageAddr]
  simp only [last_eq h]
  generalize mempoolBlockGetAddress platform block = a at hend hdvd hle ⊢
  generalize conversionLoss platform block = d at hloss hk ⊢
  generalize hx : (if d ≤ a + block.size - 1 then a + block.size - 1 - d
    else a + block.size - 1 + platform.sizes - d) = x
  have hxlt : x < platform.sizes := by
    rw [← hx]
    split_ifs <;> omega
  have hfloor := floor_le platform.pageSize x
  have hnext := add_le_of_dvd (dvd_floor platform.pageSize x) h.dvd_sizes (by omega)
  -- the sum wraps around only if it is not a number of a page in the memory
  have hmod : (floor platform.pageSize x + platform.pageSize) % platform.sizes =
      a + block.objSize ↔ floor platform.pageSize x = a + block.objSize - platform.pageSize := by
    rcases Nat.lt_or_eq_of_le hnext with hlt | heq
    · rw [Nat.mod_eq_of_lt hlt]
      omega
    · rw [heq, Nat.mod_self]
      omega
  rw [hmod, floor_eq_iff platform.pageSize_pos (Nat.dvd_sub hdvd (Nat.dvd_refl _)), ← hx]
  split_ifs with hloss'
  · omega
  · -- the loss is a multiple of the range of `int`, so the last byte is far behind the object
    have hfar : d + 2 ^ 32 ≤ platform.sizes :=
      add_le_of_dvd ⟨k, hk⟩ platform.int_dvd_sizes hloss
    omega

theorem Fits.page_dvd_locked (h : Fits platform block) :
    platform.pageSize ∣ mempoolBlockGetAddressLocked platform block :=
  (Nat.dvd_mod_iff h.dvd_sizes).mpr (Nat.dvd_add (dvd_floor _ _) (Nat.dvd_refl _))

theorem guarded_iff (h : Fits platform block) :
    Guarded platform block
        (block.addr + (realSize platform block.size + platform.pageSize - 1))
        (mempoolBlockGetAddress platform block) (mempoolBlockGetAddressLocked platform block) ↔
      Placeable platform block := by
  have hbounds := Block.objSize_bounds h.size
  have hpage := platform.le_pageSize
  have hrel : relAddr platform block < platform.pageSize :=
    padding_lt platform.pageSize_pos block.objSize
  have hfloor := floor_add_mod platform.pageSize block.addr
  have haddr := getAddress_eq h
  have hlocked := locked_eq_iff h
  have hplaceable : Placeable platform block ↔
      relAddr platform block ≠ headerEnd platform block ∧
        headerEnd platform block ≤ platform.pageSize + relAddr platform block ∧
        block.objSize - block.size + conversionLoss platform block < platform.pageSize := Iff.rfl
  rw [hplaceable, ← hlocked]
  have hheader : headerEnd platform block =
    block.addr % platform.pageSize + sizeofBlock platform := rfl
  have hreal : realSize platform block.size =
    sizeofBlock platform + block.objSize + platform.pageSize := rfl
  constructor
  · intro hg
    have heq : mempoolBlockGetAddressLocked platform block =
        mempoolBlockGetAddress platform block + block.objSize := by
      have := hg.before
      have := hg.close
      exact eq_of_dvd hg.page (dvd_getAddress_add h) (by omega) (by omega)
    have := hg.header
    have := hg.inside
    split_ifs at haddr <;> refine ⟨?_, ?_, heq⟩ <;> omega
  · rintro ⟨hne, hle, heq⟩
    refine ⟨?_, getAddress_aligned h, ?_, ?_, h.page_dvd_locked, ?_⟩
    · split_ifs at haddr <;> omega
    · omega
    · omega
    · split_ifs at haddr <;> omega

end Block

/-- For every size and every address of the memory, what the caller is given is guarded exactly if
the block is placeable. -/
theorem mempoolAllocatorAlloc_guarded_iff (platform : Platform) {ops : AllocatorOps}
    (hops : ops.allocWithRightAlignment = none) (allocator : Allocator) {size : Nat}
    (hsize : 1 ≤ size) {addr : Nat}
    (haddr : ops.alloc (realSize platform size + platform.pageSize - 1) = addr) (hnull : addr ≠ 0)
    (hfits : addr + (realSize platform size + platform.pageSize - 1) ≤ platform.sizes) :
    ∃ a locked, mempoolAllocatorAlloc platform ops allocator size =
        (some a, ⟨⟨addr, size⟩ :: allocator.blocks, locked :: allocator.noAccess⟩) ∧
      (Guarded platform ⟨addr, size⟩
          (addr + (realSize platform size + platform.pageSize - 1)) a locked ↔
        Placeable platform ⟨addr, size⟩) := by
  have halloc : mempoolAllocWithRightAlignment platform ops (realSize platform size) = addr := by
    rw [mempoolAllocWithRightAlignment, hops]
    exact haddr
  refine ⟨_, _, ?_, guarded_iff ⟨hsize, hfits⟩⟩
  rw [mempoolAllocatorAlloc, halloc]
  exact if_neg hnull

def samplePlatform : Platform := ⟨8, 12, .inr rfl, by decide⟩

/-- An allocator that returns the same address always. -/
def sampleOps : AllocatorOps := ⟨fun _ => 65544, none⟩

/-- A block of the size of a word. -/
theorem mempoolAllocatorAlloc_guarded_iff_word :
    ∃ a locked, mempoolAllocatorAlloc samplePlatform sampleOps ⟨[], []⟩ 8 =
        (some a, ⟨[⟨65544, 8⟩], [locked]⟩) ∧
      Guarded samplePlatform ⟨65544, 8⟩ 73767 a locked := by
  obtain ⟨a, locked, hrun, hiff⟩ := @mempoolAllocatorAlloc_guarded_iff samplePlatform sampleOps
    rfl ⟨[], []⟩ 8 (by decide) 65544 rfl (by decide) (by decide +kernel)
  exact ⟨a, locked, hrun, hiff.mpr (by decide +kernel)⟩

/-- An object right behind the header is moved to the next page, and the locked page goes on behind
the end of the memory. -/
theorem not_guarded_behind_header :
    ¬∀ (platform : Platform) (ops : AllocatorOps) (allocator : Allocator) (size addr : Nat),
      ops.allocWithRightAlignment = none → 1 ≤ size →
      ops.alloc (realSize platform size + platform.pageSize - 1) = addr → addr ≠ 0 → 8 ∣ addr →
      addr + (realSize platform size + platform.pageSize - 1) ≤ platform.sizes →
      ∀ a allocator', mempoolAllocatorAlloc platform ops allocator size = (some a, allocator') →
        ∃ locked rest, allocator'.noAccess = locked :: rest ∧ Guarded platform ⟨addr, size⟩
          (addr + (realSize platform size + platform.pageSize - 1)) a locked := by
  intro h
  obtain ⟨locked, rest, hlocked, hguarded⟩ := h samplePlatform sampleOps ⟨[], []⟩ 4064 65544
    rfl (by decide) rfl (by decide) (by decide) (by decide +kernel) _ _ rfl
  cases hlocked
  exact absurd hguarded.inside (by decide +kernel)

end MemoryPool
end KedrAux
