/-
# `Rtlog.Base.Loop` — a loop with a counter of turns

A loop is given by its *turn*: what one pass through the body makes of the
state, or what it leaves the loop with.  Nothing says that a loop ends, so a
run is given a number of turns it may take, and "it ends" is a statement about
that number.

`run_of_variant` is the rule for total correctness.  An invariant and a variant
that falls with every turn that goes on bound the number of turns, and what the
last turn establishes holds of the result.  `run_of_le` says that more turns
than are needed change nothing.
-/
import Mathlib

/-- A loop: one turn goes on with a state, or leaves with a result. -/
structure Loop (S R : Type) where
  turn : S → S ⊕ R

namespace Loop

variable {S R : Type} (L : Loop S R)

/-- What the loop leaves with, if it does so within so many turns. -/
def run : Nat → S → Option R
  | 0, _ => none
  | n + 1, s =>
      match L.turn s with
      | .inl s' => run n s'
      | .inr r => some r

theorem run_succ_of_inl {n : Nat} {s s' : S} (h : L.turn s = .inl s') :
    L.run (n + 1) s = L.run n s' := by
  rw [run, h]

theorem run_succ_of_inr {n : Nat} {s : S} {r : R} (h : L.turn s = .inr r) :
    L.run (n + 1) s = some r := by
  rw [run, h]

variable {L}

theorem run_of_le : ∀ {m n : Nat} {s : S} {r : R}, L.run m s = some r → m ≤ n →
    L.run n s = some r := by
  intro m
  induction m with
  | zero => intro n s r h _; cases h
  | succ m ih =>
      intro n s r h hmn
      obtain ⟨n, rfl⟩ : ∃ n', n = n' + 1 := ⟨n - 1, by omega⟩
      cases ht : L.turn s with
      | inl s' =>
          rw [run_succ_of_inl L ht] at h ⊢
          exact ih h (Nat.le_of_succ_le_succ hmn)
      | inr r' =>
          rw [run_succ_of_inr L ht] at h ⊢
          exact h

/-- If every turn from a state with `I` either keeps `I` and lowers `v`, or
leaves with `Q`, then the loop leaves with `Q`, in at most `v + 1` turns. -/
theorem run_of_variant {I : S → Prop} {Q : R → Prop} (v : S → Nat)
    (hturn : ∀ s, I s → (∃ s', L.turn s = .inl s' ∧ I s' ∧ v s' < v s) ∨
      ∃ r, L.turn s = .inr r ∧ Q r) {s : S} (hI : I s) :
    ∃ r, L.run (v s + 1) s = some r ∧ Q r := by
  suffices h : ∀ (n : Nat) (s : S), I s → v s ≤ n → ∃ r, L.run (n + 1) s = some r ∧ Q r from
    h (v s) s hI (Nat.le_refl _)
  clear hI s
  intro n
  induction n with
  | zero =>
      intro s hI hv
      obtain ⟨s', -, -, hlt⟩ | ⟨r, ht, hQ⟩ := hturn s hI
      · omega
      · exact ⟨r, run_succ_of_inr L ht, hQ⟩
  | succ n ih =>
      intro s hI hv
      obtain ⟨s', ht, hI', hlt⟩ | ⟨r, ht, hQ⟩ := hturn s hI
      · obtain ⟨r, hrun, hQ⟩ := ih s' hI' (by omega)
        exact ⟨r, (run_succ_of_inl L ht).trans hrun, hQ⟩
      · exact ⟨r, run_succ_of_inr L ht, hQ⟩

end Loop
