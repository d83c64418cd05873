/-
# `Rtlog.Base.Lanes` — one FIFO lane per producer

The queue a multi-producer, single-consumer program sees when nothing is
promised across producers: each producer appends to a lane of its own, and the
consumer removes the head of some lane that has one.

What such a queue conserves is stated against two logs, `accepted` (what each
producer put in, in order) and `removed` (what the consumer took out, in
order):

    accepted i  =  removed, restricted to producer i  ++  what lane i holds

`Conserves` is this equation together with the fact that a lane's items name
their producer.  It is preserved by `push` and by `pop?`, and when every
producer's log is free of repetition it makes `removed` free of repetition
(`Conserves.removed_nodup`): nothing is taken out twice.  How many items there are
is `HasSize`; it moves by one with each operation.
-/
import Mathlib

/-- What each producer's lane holds, oldest first. -/
abbrev Lanes (ι α : Type) := ι → List α

namespace Lanes

variable {ι α β : Type}

/-- Every lane empty. -/
def empty : Lanes ι α := fun _ => []

/-- Every item through `f`. -/
def map (f : α → β) (q : Lanes ι α) : Lanes ι β := fun i => (q i).map f

/-- The lanes hold `n` items in all. -/
def HasSize (q : Lanes ι α) (n : Nat) : Prop :=
  ∃ S : Finset ι, (∀ i, i ∉ S → q i = []) ∧ ∑ i ∈ S, (q i).length = n

theorem hasSize_empty : (empty : Lanes ι α).HasSize 0 := ⟨∅, fun _ _ => rfl, Finset.sum_empty⟩

variable [DecidableEq ι]

/-- Append `a` to lane `i`. -/
def push (q : Lanes ι α) (i : ι) (a : α) : Lanes ι α := Function.update q i (q i ++ [a])

/-- Remove the head of lane `i`, if it has one. -/
def pop? (q : Lanes ι α) (i : ι) : Option (α × Lanes ι α) :=
  match q i with
  | [] => none
  | a :: rest => some (a, Function.update q i rest)

theorem push_same (q : Lanes ι α) (i : ι) (a : α) : q.push i a i = q i ++ [a] := by
  simp [push]

theorem push_of_ne {q : Lanes ι α} {i j : ι} {a : α} (h : j ≠ i) : q.push i a j = q j := by
  simp [push, h]

theorem mem_push {q : Lanes ι α} {i j : ι} {a b : α} :
    b ∈ q.push i a j ↔ b ∈ q j ∨ j = i ∧ b = a := by
  rcases eq_or_ne j i with rfl | h
  · simp [push_same]
  · simp [push_of_ne h, h]

theorem prefix_push (q : Lanes ι α) (i j : ι) (a : α) : q j <+: q.push i a j := by
  rcases eq_or_ne j i with rfl | h
  · exact ⟨[a], (push_same q j a).symm⟩
  · exact ⟨[], (List.append_nil _).trans (push_of_ne h).symm⟩

theorem push_inj {q : Lanes ι α} {i : ι} {a b : α} (h : q.push i a = q.push i b) : a = b := by
  have hi := congrFun h i
  rw [push_same, push_same] at hi
  simpa using hi

theorem push_ne_self (q : Lanes ι α) (i : ι) (a : α) : q.push i a ≠ q := by
  intro h
  have hi := congrArg List.length (congrFun h i)
  rw [push_same, List.length_append, List.length_singleton] at hi
  omega

theorem pop?_eq_some {q q' : Lanes ι α} {i : ι} {a : α} :
    q.pop? i = some (a, q') ↔ ∃ rest, q i = a :: rest ∧ q' = Function.update q i rest := by
  unfold pop?
  split
  · next h => simp [h]
  · next b rest h => simp [h, eq_comm]

theorem map_push (f : α → β) (q : Lanes ι α) (i : ι) (a : α) :
    map f (q.push i a) = (map f q).push i (f a) := by
  funext j
  by_cases h : j = i
  · subst h; simp [map, push]
  · simp [map, push, h]

theorem map_update (f : α → β) (q : Lanes ι α) (i : ι) (l : List α) :
    map f (Function.update q i l) = Function.update (map f q) i (l.map f) := by
  funext j
  by_cases h : j = i
  · subst h; simp [map]
  · simp [map, h]

/-! ## How many items there are -/

/-- One lane is counted apart from the others. -/
theorem HasSize.update {q : Lanes ι α} {n : Nat} (h : q.HasSize n) (i : ι) :
    ∃ k, n = (q i).length + k ∧
      ∀ l : List α, HasSize (Function.update q i l) (l.length + k) := by
  obtain ⟨S, hout, hsum⟩ := h
  refine ⟨∑ j ∈ S.erase i, (q j).length, ?_, ?_⟩
  · by_cases hi : i ∈ S
    · rw [Finset.add_sum_erase S (fun j => (q j).length) hi, hsum]
    · rw [Finset.erase_eq_of_notMem hi, hout i hi, hsum, List.length_nil, Nat.zero_add]
  · intro l
    refine ⟨insert i (S.erase i), ?_, ?_⟩
    · intro j hj
      obtain ⟨hne, hj⟩ := not_or.mp (mt Finset.mem_insert.mpr hj)
      rw [Function.update_of_ne hne]
      exact hout j fun hmem => hj (Finset.mem_erase.mpr ⟨hne, hmem⟩)
    · rw [Finset.sum_insert (Finset.notMem_erase i S), Function.update_self]
      congr 1
      refine Finset.sum_congr rfl fun j hj => ?_
      rw [Function.update_of_ne (Finset.ne_of_mem_erase hj)]

theorem HasSize.push {q : Lanes ι α} {n : Nat} (h : q.HasSize n) (i : ι) (a : α) :
    (q.push i a).HasSize (n + 1) := by
  obtain ⟨k, rfl, hupd⟩ := h.update i
  have := hupd (q i ++ [a])
  rwa [List.length_append, List.length_singleton, Nat.add_right_comm] at this

theorem HasSize.pop {q : Lanes ι α} {n : Nat} (h : q.HasSize n) {i : ι} {a : α} {rest : List α}
    (hq : q i = a :: rest) : ∃ k, n = k + 1 ∧ HasSize (Function.update q i rest) k := by
  obtain ⟨k, rfl, hupd⟩ := h.update i
  refine ⟨rest.length + k, ?_, hupd rest⟩
  rw [hq, List.length_cons, Nat.add_right_comm]

/-! ## Conservation -/

/-- `accepted` went into the lanes of `q`, and `removed` is what came out. -/
structure Conserves (owner : α → ι) (accepted : Lanes ι α) (removed : List α)
    (q : Lanes ι α) : Prop where
  owned : ∀ i, ∀ a ∈ accepted i, owner a = i
  split : ∀ i, accepted i = removed.filter (fun a => owner a = i) ++ q i

namespace Conserves

variable {owner : α → ι} {accepted q : Lanes ι α} {removed : List α}

theorem start : Conserves owner (empty : Lanes ι α) [] empty where
  owned _ _ h := absurd h (List.not_mem_nil)
  split _ := rfl

theorem push (h : Conserves owner accepted removed q) {i : ι} {a : α} (ha : owner a = i) :
    Conserves owner (accepted.push i a) removed (q.push i a) where
  owned j b hb := by
    rcases mem_push.mp hb with hb | ⟨rfl, rfl⟩
    · exact h.owned j b hb
    · exact ha
  split j := by
    rcases eq_or_ne j i with rfl | hj
    · rw [push_same, push_same, h.split j, List.append_assoc]
    · rw [push_of_ne hj, push_of_ne hj, h.split j]

theorem pop (h : Conserves owner accepted removed q) {i : ι} {a : α} {rest : List α}
    (hq : q i = a :: rest) :
    Conserves owner accepted (removed ++ [a]) (Function.update q i rest) where
  owned := h.owned
  split j := by
    have ha : owner a = i := h.owned i a (by rw [h.split i, hq]; simp)
    by_cases hj : j = i
    · subst hj
      rw [h.split j, hq]
      simp [List.filter_append, ha]
    · have hne : owner a ≠ j := fun hc => hj (hc.symm.trans ha)
      rw [h.split j]
      simp [List.filter_append, hne, hj]

theorem mem_accepted_iff (h : Conserves owner accepted removed q) {i : ι} {a : α} :
    a ∈ accepted i ↔ (a ∈ removed ∧ owner a = i) ∨ a ∈ q i := by
  rw [h.split i]
  simp [List.mem_filter]

theorem removed_subset (h : Conserves owner accepted removed q) {a : α} (ha : a ∈ removed) :
    a ∈ accepted (owner a) :=
  h.mem_accepted_iff.mpr (.inl ⟨ha, rfl⟩)

/-- If no producer's log repeats an item, nothing was removed twice. -/
theorem removed_nodup (h : Conserves owner accepted removed q)
    (hnd : ∀ i, (accepted i).Nodup) : removed.Nodup := by
  have hlane : ∀ i, (removed.filter fun a => owner a = i).Nodup := by
    intro i
    have := hnd i
    rw [h.split i] at this
    exact this.of_append_left
  clear h
  induction removed with
  | nil => exact List.nodup_nil
  | cons a rest ih =>
      refine List.nodup_cons.mpr ⟨?_, ih ?_⟩
      · intro hmem
        have hself := hlane (owner a)
        rw [List.filter_cons_of_pos (by simp)] at hself
        exact (List.nodup_cons.mp hself).1 (List.mem_filter.mpr ⟨hmem, by simp⟩)
      · intro i
        have hi := hlane i
        rw [List.filter_cons] at hi
        split at hi
        · exact hi.of_cons
        · exact hi

/-- An item still in a lane has not been removed. -/
theorem not_mem_removed (h : Conserves owner accepted removed q)
    (hnd : ∀ i, (accepted i).Nodup) {i : ι} {a : α} (ha : a ∈ q i) : a ∉ removed := by
  intro hmem
  have hacc : a ∈ accepted i := h.mem_accepted_iff.mpr (.inr ha)
  have hi := hnd i
  rw [h.split i] at hi
  refine (List.disjoint_of_nodup_append hi) (List.mem_filter.mpr ⟨hmem, ?_⟩) ha
  simp [h.owned i a hacc]

end Conserves

end Lanes
