/-
# `Rtlog.Base.Circular` — counters that wrap

A free-running counter is a natural number of which a word keeps the last `w`
bits.  Two such words are compared by their difference: `a` is before `b` when
going from `a` to `b` takes less than half a turn.  The comparison says what the
numbers say as long as these are less than half a turn apart (`less_ofNat_iff`);
when only one side of that is known it still errs to one side only
(`lt_of_less`).
-/
import Mathlib

namespace Circular

variable {w : Nat}

/-- `a` is less than half a turn before `b`. -/
def less (a b : BitVec w) : Bool := decide (2 ^ (w - 1) < (a - b).toNat)

theorem two_mul_half (hw : 0 < w) : 2 * 2 ^ (w - 1) = 2 ^ w := by
  rw [← Nat.pow_succ', Nat.succ_eq_add_one, Nat.sub_add_cancel hw]

theorem ofNat_succ (x : Nat) : BitVec.ofNat w (x + 1) = BitVec.ofNat w x + 1 :=
  BitVec.ofNat_add x 1

/-- The distance of two counters, while it is less than a turn. -/
theorem toNat_sub_of_le {x y : Nat} (hle : y ≤ x) (hlt : x < y + 2 ^ w) :
    (BitVec.ofNat w x - BitVec.ofNat w y).toNat = x - y := by
  obtain ⟨d, rfl⟩ := Nat.exists_eq_add_of_le hle
  have hsub : BitVec.ofNat w (y + d) - BitVec.ofNat w y = BitVec.ofNat w d := by
    rw [BitVec.ofNat_add, BitVec.add_comm, BitVec.add_sub_cancel]
  rw [hsub, BitVec.toNat_ofNat, Nat.mod_eq_of_lt (by omega)]
  omega

/-- The distance of two counters the other way round. -/
theorem toNat_sub_of_lt {x y : Nat} (hlt : x < y) (hle : y ≤ x + 2 ^ w) :
    (BitVec.ofNat w x - BitVec.ofNat w y).toNat = x + 2 ^ w - y := by
  have hturn : BitVec.ofNat w x = BitVec.ofNat w (x + 2 ^ w) :=
    BitVec.eq_of_toNat_eq (by simp)
  rw [hturn]
  exact toNat_sub_of_le hle (by omega)

/-- Within half a turn the comparison is that of the counters. -/
theorem less_ofNat_iff (hw : 0 < w) {x y : Nat} (hxy : x ≤ y + 2 ^ (w - 1))
    (hyx : y < x + 2 ^ (w - 1)) :
    less (BitVec.ofNat w x) (BitVec.ofNat w y) = true ↔ x < y := by
  have hturn := two_mul_half hw
  rw [less, decide_eq_true_iff]
  rcases Nat.lt_or_ge x y with h | h
  · rw [toNat_sub_of_lt h (by omega)]
    omega
  · rw [toNat_sub_of_le h (by omega)]
    omega

/-- A counter that is at most half a turn ahead is never taken for one that is behind. -/
theorem lt_of_less (hw : 0 < w) {x y : Nat} (hxy : x ≤ y + 2 ^ (w - 1))
    (h : less (BitVec.ofNat w x) (BitVec.ofNat w y) = true) : x < y := by
  have hturn := two_mul_half hw
  rw [less, decide_eq_true_iff] at h
  by_contra hge
  rw [toNat_sub_of_le (Nat.not_lt.mp hge) (by omega)] at h
  omega

/-- What a word keeps of a counter is enough to know it modulo a divisor of the turn. -/
theorem toNat_ofNat_mod {m : Nat} (hm : m ∣ 2 ^ w) (x : Nat) :
    (BitVec.ofNat w x).toNat % m = x % m := by
  rw [BitVec.toNat_ofNat, Nat.mod_mod_of_dvd _ hm]

end Circular
