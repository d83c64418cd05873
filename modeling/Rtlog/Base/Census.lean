/-
# `Rtlog.Base.Census` — how many threads are somewhere

Finitely many threads are each at a place.  `census P f` is how many of them are at one
of the places `P`; one thread at a time moves, and the lemmas say what that does to the
number.  A counter that threads raise when they come and lower when they go is such a
number.
-/
import Mathlib

variable {τ σ : Type} [Fintype τ]

/-- How many threads are at a place of `P`. -/
def census (P : σ → Bool) (f : τ → σ) : Nat := ∑ t, if P (f t) then 1 else 0

section Census

variable {P : σ → Bool} {f : τ → σ} {t : τ} {x : σ}

theorem census_le (P : σ → Bool) (f : τ → σ) : census P f ≤ Fintype.card τ := by
  refine (Finset.sum_le_card_nsmul _ _ 1 fun t _ => ?_).trans_eq
    (by rw [smul_eq_mul, Nat.mul_one, Finset.card_univ])
  split <;> decide

theorem census_eq_zero : census P f = 0 ↔ ∀ t, P (f t) = false := by
  simp [census]

theorem census_pos (h : P (f t) = true) : 0 < census P f := by
  refine Nat.pos_of_ne_zero fun hzero => ?_
  rw [census_eq_zero.mp hzero t] at h
  cases h

variable [DecidableEq τ]

/-- A thread is counted where it goes, and no longer where it was. -/
theorem census_update (P : σ → Bool) (f : τ → σ) (t : τ) (x : σ) :
    census P (Function.update f t x) + (if P (f t) then 1 else 0) =
      census P f + if P x then 1 else 0 := by
  have hrest : ∑ u ∈ Finset.univ.erase t, (if P (Function.update f t x u) then 1 else 0) =
      ∑ u ∈ Finset.univ.erase t, if P (f u) then 1 else 0 := by
    refine Finset.sum_congr rfl fun u hu => ?_
    rw [Function.update_of_ne (Finset.ne_of_mem_erase hu)]
  rw [census, census, ← Finset.add_sum_erase _ _ (Finset.mem_univ t), hrest,
    Function.update_self, ← Finset.add_sum_erase _ (fun u => if P (f u) then 1 else 0)
    (Finset.mem_univ t)]
  omega

theorem census_stay (h : P x = P (f t)) : census P (Function.update f t x) = census P f := by
  have := census_update P f t x
  rw [h] at this
  omega

theorem census_enter (hx : P x = true) (ht : P (f t) = false) :
    census P (Function.update f t x) = census P f + 1 := by
  have := census_update P f t x
  rw [hx, ht] at this
  simpa using this

theorem census_leave (hx : P x = false) (ht : P (f t) = true) :
    census P (Function.update f t x) + 1 = census P f := by
  have := census_update P f t x
  rw [hx, ht] at this
  simpa using this

end Census
