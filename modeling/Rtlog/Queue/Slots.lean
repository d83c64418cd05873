/-
# `Rtlog.Queue.Slots` — where the n-th element of a producer is

The elements a producer enqueues are numbered from 0, and so are the blocks it
puts them in: element `n` is at position `n % 32` of block `n / 32`, whose entry
is in slot `n / 32 % 32` of the block index.  The code has only words to go by,

    index           the number, modulo 2 ^ 64
    key             the number of the first element of a block, modulo 2 ^ 64
    tail            the slot of the newest block

and finds the slot of an element from its distance to a key that may belong to
any block, older or newer.  `indexIndex_eq` says that it finds the right one,
which rests on the sizes being powers of two: the difference is divided as an
unsigned number.
-/
import Rtlog.Queue.Machine

namespace Rtlog.Queue

/-- The counter `n`, as the code has it. -/
abbrev word (n : Nat) : Size := BitVec.ofNat 64 n

/-- The key of block `k`. -/
def key (k : Nat) : Size := word (32 * k)

/-- The slot of block `k`. -/
def slot (k : Nat) : Size := word (k % 32)

theorem word_succ (n : Nat) : word (n + 1) = word n + 1#64 := Circular.ofNat_succ n

theorem mask_eq : blockSize - 1#64 = 31#64 := rfl

theorem indexMask_eq : implicitInitialIndexSize - 1#64 = 31#64 := rfl

theorem maxSubqueueSize_eq : maxSubqueueSize = 64#64 := rfl

/-- Masking with a power of two less one takes the remainder. -/
theorem toNat_and_mask (x : Size) : (x &&& 31#64).toNat = x.toNat % 32 := by
  rw [BitVec.toNat_and]
  exact Nat.and_two_pow_sub_one_eq_mod x.toNat 5

/-- Masking with the complement takes off the remainder. -/
theorem toNat_and_not_mask (x : Size) : (x &&& ~~~31#64).toNat = x.toNat / 32 * 32 := by
  have hshift : x &&& ~~~31#64 = (x >>> 5) <<< 5 := by
    refine BitVec.eq_of_getElem_eq fun i hi => ?_
    have hmask : (31#64)[i] = decide (i < 5) := by
      rw [BitVec.getElem_eq_testBit_toNat]
      exact Nat.testBit_two_pow_sub_one 5 i
    rw [BitVec.getElem_and, BitVec.getElem_not, hmask, BitVec.getElem_shiftLeft]
    by_cases h5 : i < 5
    · simp [h5]
    · simp [h5, BitVec.getLsbD_eq_getElem, hi, show 5 + (i - 5) = i by omega]
  have hlt := x.isLt
  rw [hshift, BitVec.toNat_shiftLeft, BitVec.toNat_ushiftRight, Nat.shiftLeft_eq,
    Nat.shiftRight_eq_div_pow]
  omega

theorem pos_word (n : Nat) : pos (word n) = n % 32 := by
  rw [pos, mask_eq, toNat_and_mask]
  exact Circular.toNat_ofNat_mod ⟨2 ^ 59, rfl⟩ n

/-- The test for the end of a block. -/
theorem word_and_mask_eq_zero {n : Nat} : word n &&& (blockSize - 1#64) = 0#64 ↔ n % 32 = 0 := by
  rw [← pos_word, pos]
  exact ⟨fun h => by rw [h]; rfl, fun h => BitVec.eq_of_toNat_eq h⟩

/-! ## Slots -/

theorem toNat_slot (k : Nat) : (slot k).toNat = k % 32 := by
  rw [slot, BitVec.toNat_ofNat]
  omega

theorem slot_eq_iff {j k : Nat} : slot j = slot k ↔ j % 32 = k % 32 := by
  rw [← BitVec.toNat_inj, toNat_slot, toNat_slot]

theorem slot_add (k : Nat) : slot (k + 32) = slot k := slot_eq_iff.mpr (Nat.add_mod_right k 32)

/-- The slot after that of block `k` is that of block `k + 1`. -/
theorem slot_succ (k : Nat) :
    (slot k + 1#64) &&& (implicitInitialIndexSize - 1#64) = slot (k + 1) := by
  refine BitVec.eq_of_toNat_eq ?_
  rw [indexMask_eq, toNat_and_mask, BitVec.toNat_add, toNat_slot, toNat_slot]
  simp only [BitVec.reduceToNat]
  omega

/-- ... and the slot before it is that of block `k`. -/
theorem slot_pred (k : Nat) :
    (slot (k + 1) - 1#64) &&& (implicitInitialIndexSize - 1#64) = slot k := by
  refine BitVec.eq_of_toNat_eq ?_
  rw [indexMask_eq, toNat_and_mask, BitVec.toNat_sub, toNat_slot, toNat_slot]
  simp only [BitVec.reduceToNat]
  omega

/-! ## Keys -/

theorem toNat_key (k : Nat) : (key k).toNat = 32 * k % 2 ^ 64 := BitVec.toNat_ofNat ..

/-- A key is no invalid key. -/
theorem key_ne_invalid (k : Nat) : key k ≠ invalidBlockBase := by
  intro h
  have h := congrArg BitVec.toNat h
  rw [toNat_key, invalidBlockBase] at h
  simp only [BitVec.reduceToNat] at h
  omega

/-- Element `n` is looked up in the slot of its block, whatever block the key is of. -/
theorem indexIndex_eq (n t : Nat) : indexIndex (word n) (slot t) (key t) = slot (n / 32) := by
  refine BitVec.eq_of_toNat_eq ?_
  rw [indexIndex, mask_eq, indexMask_eq, toNat_and_mask, BitVec.toNat_add, BitVec.toNat_udiv,
    BitVec.toNat_sub, toNat_and_not_mask, toNat_slot, toNat_slot, toNat_key, BitVec.toNat_ofNat,
    blockSize]
  simp only [BitVec.reduceToNat]
  omega

end Rtlog.Queue
