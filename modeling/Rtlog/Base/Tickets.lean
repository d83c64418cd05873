/-
# `Rtlog.Base.Tickets` — places taken from a counter

A counter says how many have a place.  Who takes one gets the count with itself as its
ticket; who gives it back counts the counter down.  So two may have the same ticket: after
one of three has given its place back, the next has ticket 3 too.  But those with a ticket
of at most `n` are never more than `n` (`Tickets.Ranked`), which is what a ticket is good
for: whoever has one below the size of a room finds a place in it.
-/
import Mathlib

/-- Who has a place, and which ticket. -/
structure Tickets (ι : Type) where
  live : List ι
  ticket : ι → Nat

namespace Tickets

variable {ι : Type} [DecidableEq ι]

def empty : Tickets ι := ⟨[], fun _ => 0⟩

/-- `i` takes a place. -/
def take (t : Tickets ι) (i : ι) : Tickets ι :=
  ⟨i :: t.live, Function.update t.ticket i (t.live.length + 1)⟩

/-- `i` gives its place back. -/
def giveBack (t : Tickets ι) (i : ι) : Tickets ι := { t with live := t.live.erase i }

/-- Nobody has two places, and of those with a ticket of at most `n` there are no more. -/
structure Ranked (t : Tickets ι) : Prop where
  nodup : t.live.Nodup
  rank : ∀ n, (t.live.filter fun i => t.ticket i ≤ n).length ≤ n

variable {t : Tickets ι} {i j : ι}

@[simp] theorem mem_take : j ∈ (t.take i).live ↔ j = i ∨ j ∈ t.live := List.mem_cons

theorem Ranked.mem_giveBack (h : t.Ranked) : j ∈ (t.giveBack i).live ↔ j ≠ i ∧ j ∈ t.live :=
  h.nodup.mem_erase_iff

@[simp] theorem ticket_take : (t.take i).ticket i = t.live.length + 1 := Function.update_self ..

theorem ticket_take_of_ne (h : j ≠ i) : (t.take i).ticket j = t.ticket j :=
  Function.update_of_ne h ..

omit [DecidableEq ι] in
theorem Ranked.empty : (empty : Tickets ι).Ranked where
  nodup := List.nodup_nil
  rank _ := Nat.zero_le _

theorem Ranked.take (h : t.Ranked) (hi : i ∉ t.live) : (t.take i).Ranked where
  nodup := List.nodup_cons.mpr ⟨hi, h.nodup⟩
  rank n := by
    have hsame : t.live.filter (fun j => (t.take i).ticket j ≤ n) =
        t.live.filter fun j => t.ticket j ≤ n := by
      refine List.filter_congr fun j hj => ?_
      rw [ticket_take_of_ne fun heq : j = i => hi (heq ▸ hj)]
    show ((i :: t.live).filter _).length ≤ n
    by_cases hn : t.live.length + 1 ≤ n
    · calc ((i :: t.live).filter _).length
          ≤ (i :: t.live).length := List.length_filter_le ..
        _ ≤ n := hn
    · rw [List.filter_cons_of_neg (by simpa using hn), hsame]
      exact h.rank n

theorem Ranked.giveBack (h : t.Ranked) (i : ι) : (t.giveBack i).Ranked where
  nodup := h.nodup.erase i
  rank n := (((List.erase_sublist ..).filter _).length_le).trans (h.rank n)

theorem length_giveBack (hi : i ∈ t.live) : (t.giveBack i).live.length + 1 = t.live.length := by
  have hpos := List.length_pos_of_mem hi
  show (t.live.erase i).length + 1 = _
  rw [List.length_erase_of_mem hi]
  omega

end Tickets
