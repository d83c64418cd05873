/-
# `Rtlog.Base.Tally` — how often a value has been recorded

A record assigns a value to every number; `tally f v n` is how many numbers
below `n` have been given `v`.  A record is changed at one number at a time, and
the lemmas say by how much that moves the tally of each value.
-/
import Mathlib

variable {β : Type} [DecidableEq β]

/-- How many numbers below `n` the record `f` gives the value `v`. -/
def tally (f : Nat → β) (v : β) (n : Nat) : Nat := Nat.count (fun k => f k = v) n

section Tally

variable {f g : Nat → β} {u v : β} {m n : Nat}

theorem tally_zero (f : Nat → β) (v : β) : tally f v 0 = 0 := Nat.count_zero _

theorem tally_succ (f : Nat → β) (v : β) (n : Nat) :
    tally f v (n + 1) = tally f v n + if f n = v then 1 else 0 := Nat.count_succ _ _

theorem tally_succ_of_eq (h : f n = v) : tally f v (n + 1) = tally f v n + 1 := by
  rw [tally_succ, if_pos h]

theorem tally_succ_of_ne (h : f n ≠ v) : tally f v (n + 1) = tally f v n := by
  rw [tally_succ, if_neg h, Nat.add_zero]

theorem tally_le (f : Nat → β) (v : β) (n : Nat) : tally f v n ≤ n := Nat.count_le _

theorem tally_eq_iff : tally f v n = n ↔ ∀ k < n, f k = v := Nat.count_iff_forall

theorem tally_eq_zero (h : ∀ k < n, f k ≠ v) : tally f v n = 0 := Nat.count_iff_forall_not.mpr h

theorem tally_pos (hm : m < n) (h : f m = v) : 0 < tally f v n :=
  Nat.pos_of_ne_zero (Nat.count_ne_iff_exists.mpr ⟨m, hm, h⟩)

theorem tally_congr (h : ∀ k < n, f k = v ↔ g k = v) : tally f v n = tally g v n := by
  induction n with
  | zero => rw [tally_zero, tally_zero]
  | succ n ih =>
      rw [tally_succ, tally_succ, ih fun k hk => h k (Nat.lt_succ_of_lt hk)]
      simp only [h n (Nat.lt_succ_self n)]

/-- A change at `m` is not seen below `m`. -/
theorem tally_update_of_le (h : n ≤ m) : tally (Function.update f m u) v n = tally f v n :=
  tally_congr fun k hk => by rw [Function.update_of_ne (by omega)]

/-- A change that neither removes nor adds a `v` leaves the tally of `v` alone. -/
theorem tally_update_of_ne (hold : f m ≠ v) (hnew : u ≠ v) :
    tally (Function.update f m u) v n = tally f v n := by
  refine tally_congr fun k _ => ?_
  rcases eq_or_ne k m with rfl | h
  · simp [hold, hnew]
  · rw [Function.update_of_ne h]

/-- A change to `v` adds one. -/
theorem tally_update_self (hm : m < n) (hold : f m ≠ v) :
    tally (Function.update f m v) v n = tally f v n + 1 := by
  induction n with
  | zero => omega
  | succ n ih =>
      rcases Nat.lt_or_ge m n with h | h
      · rw [tally_succ, tally_succ, ih h, Function.update_of_ne (by omega)]
        omega
      · obtain rfl : m = n := by omega
        rw [tally_succ_of_eq (Function.update_self m v f), tally_update_of_le (Nat.le_refl m),
          tally_succ_of_ne hold]

end Tally
