/-
# `Rtlog.Base.Probing` — open addressing

A table of `n` slots, each empty or with a key in it.  A search for a key `k` looks at the
slots from the hash of `k` on, one after the other and round the end, until it finds `k` or
an empty slot.  If keys are only ever put where the search for them has come to an empty
slot, and none is taken out, every key that is in is found (`Placed`).

The search ends as long as one slot is empty (`Passed.lt`), and one is if the keys are fewer
than the slots (`exists_empty`).
-/
import Mathlib

namespace Probing

variable {κ : Type}

/-- The slot that is looked at after `d` others, from `h` on. -/
def slot (n h d : Nat) : Nat := (h + d) % n

/-- The first `d` slots from `h` on have keys in them, none of which is `k`. -/
def Passed (slots : Nat → Option κ) (n h d : Nat) (k : κ) : Prop :=
  ∀ d' < d, ∃ k', slots (slot n h d') = some k' ∧ k' ≠ k

/-- Slots are filled, and not emptied. -/
def Fills (slots slots' : Nat → Option κ) : Prop := ∀ i k, slots i = some k → slots' i = some k

/-- `k` is not in the table. -/
def Absent (slots : Nat → Option κ) (n : Nat) (k : κ) : Prop := ∀ i < n, slots i ≠ some k

/-- Every key is in once, and where a search for it finds it. -/
structure Placed (hash : κ → Nat) (slots : Nat → Option κ) (n : Nat) : Prop where
  found : ∀ i < n, ∀ k, slots i = some k →
    ∃ d < n, Passed slots n (hash k) d k ∧ slots (slot n (hash k) d) = some k
  unique : ∀ i < n, ∀ j < n, ∀ k, slots i = some k → slots j = some k → i = j

variable {slots slots' : Nat → Option κ} {n h d : Nat} {k k' : κ} {hash : κ → Nat}

theorem slot_lt (hn : 0 < n) : slot n h d < n := Nat.mod_lt _ hn

theorem Fills.refl : Fills slots slots := fun _ _ h => h

theorem Fills.update {i : Nat} (hi : slots i = none) :
    Fills slots (Function.update slots i (some k)) := by
  intro j k' hj
  rcases eq_or_ne j i with rfl | hne
  · rw [hi] at hj
    cases hj
  · rw [Function.update_of_ne hne]
    exact hj

/-! ## Searching -/

theorem Passed.zero : Passed slots n h 0 k := fun _ hd => absurd hd (Nat.not_lt_zero _)

theorem Passed.succ (hp : Passed slots n h d k) (hs : slots (slot n h d) = some k')
    (hne : k' ≠ k) : Passed slots n h (d + 1) k := by
  intro d' hd'
  rcases Nat.lt_succ_iff_lt_or_eq.mp hd' with hlt | rfl
  · exact hp d' hlt
  · exact ⟨k', hs, hne⟩

theorem Passed.mono (hp : Passed slots n h d k) (hf : Fills slots slots') :
    Passed slots' n h d k := by
  intro d' hd'
  obtain ⟨k', hs, hne⟩ := hp d' hd'
  exact ⟨k', hf _ _ hs, hne⟩

/-- A search that comes to an empty slot has missed nothing. -/
theorem Placed.absent (hP : Placed hash slots n) (hp : Passed slots n (hash k) d k)
    (hs : slots (slot n (hash k) d) = none) : Absent slots n k := by
  intro i hi hk
  obtain ⟨e, -, hpe, hse⟩ := hP.found i hi k hk
  rcases Nat.lt_trichotomy d e with hlt | rfl | hgt
  · obtain ⟨k', hk', -⟩ := hpe d hlt
    rw [hs] at hk'
    cases hk'
  · rw [hs] at hse
    cases hse
  · obtain ⟨k', hk', hne⟩ := hp e hgt
    rw [hse] at hk'
    exact hne (Option.some.inj hk').symm

/-- What is missing from `h` to a whole number of rounds. -/
theorem add_sub_mod (hn : 0 < n) : h + (n - h % n) = n * (h / n + 1) := by
  have hmod : h % n < n := Nat.mod_lt _ hn
  have hdiv := Nat.div_add_mod h n
  rw [Nat.mul_add, Nat.mul_one]
  omega

/-- How far slot `i` is from where the search begins. -/
def distance (n h i : Nat) : Nat := (i + (n - h % n)) % n

/-- From every start one comes to every slot. -/
theorem exists_slot_eq {i : Nat} (hi : i < n) (h : Nat) : ∃ d < n, slot n h d = i := by
  have hn : 0 < n := Nat.lt_of_le_of_lt (Nat.zero_le i) hi
  refine ⟨distance n h i, Nat.mod_lt _ hn, ?_⟩
  rw [slot, distance, Nat.add_mod_mod, Nat.add_left_comm, add_sub_mod hn,
    Nat.add_mul_mod_self_left, Nat.mod_eq_of_lt hi]

theorem distance_slot (hd : d < n) : distance n h (slot n h d) = d := by
  have hn : 0 < n := Nat.lt_of_le_of_lt (Nat.zero_le d) hd
  rw [distance, slot, Nat.mod_add_mod, Nat.add_right_comm, add_sub_mod hn, Nat.add_comm,
    Nat.add_mul_mod_self_left, Nat.mod_eq_of_lt hd]

/-- As long as a slot is empty the search has not been round. -/
theorem Passed.lt (hp : Passed slots n h d k) {i : Nat} (hi : i < n) (hs : slots i = none) :
    d < n := by
  by_contra hge
  obtain ⟨e, he, rfl⟩ := exists_slot_eq hi h
  obtain ⟨k', hk', -⟩ := hp e (by omega)
  rw [hs] at hk'
  cases hk'

/-- With fewer keys than slots, one slot is empty. -/
theorem Placed.exists_empty (hP : Placed hash slots n) {ks : List κ} (hks : ks.length < n)
    (hmem : ∀ i < n, ∀ k, slots i = some k → k ∈ ks) : ∃ i < n, slots i = none := by
  by_contra hfull
  have hsome : ∀ i : Fin n, (slots i).isSome := fun i => by
    rw [Option.isSome_iff_ne_none]
    exact fun hnone => hfull ⟨i, i.isLt, hnone⟩
  let keys : List κ := List.ofFn fun i => (slots i).get (hsome i)
  have hnodup : keys.Nodup := List.nodup_ofFn.mpr fun i j hij => Fin.ext <|
    hP.unique i i.isLt j j.isLt _ (Option.some_get (hsome i)).symm
      (hij ▸ (Option.some_get (hsome j)).symm)
  have hsub : keys ⊆ ks := fun k hk => by
    obtain ⟨i, rfl⟩ := List.mem_ofFn.mp hk
    exact hmem i i.isLt _ (Option.some_get (hsome i)).symm
  have hle := (List.subperm_of_subset hnodup hsub).length_le
  rw [List.length_ofFn] at hle
  omega

/-! ## Putting a key in -/

theorem Placed.empty : Placed hash (fun _ => none) n where
  found i _ k hk := by cases hk
  unique i _ j _ k hk := by cases hk

theorem Placed.update (hP : Placed hash slots n)
    (hp : Passed slots n (hash k) d k) (hd : d < n) (hs : slots (slot n (hash k) d) = none) :
    Placed hash (Function.update slots (slot n (hash k) d) (some k)) n := by
  have habsent := hP.absent hp hs
  have hf : Fills slots (Function.update slots (slot n (hash k) d) (some k)) := .update hs
  constructor
  · intro i hi k₁ hk₁
    rcases eq_or_ne i (slot n (hash k) d) with rfl | hne
    · rw [Function.update_self] at hk₁
      cases hk₁
      exact ⟨d, hd, hp.mono hf, Function.update_self ..⟩
    · rw [Function.update_of_ne hne] at hk₁
      obtain ⟨e, he, hpe, hse⟩ := hP.found i hi k₁ hk₁
      exact ⟨e, he, hpe.mono hf, hf _ _ hse⟩
  · intro i hi j hj k₁ hki hkj
    rcases eq_or_ne i (slot n (hash k) d) with rfl | hnei
    · rw [Function.update_self] at hki
      cases hki
      rcases eq_or_ne j (slot n (hash k) d) with rfl | hnej
      · rfl
      · rw [Function.update_of_ne hnej] at hkj
        exact absurd hkj (habsent j hj)
    · rw [Function.update_of_ne hnei] at hki
      rcases eq_or_ne j (slot n (hash k) d) with rfl | hnej
      · rw [Function.update_self] at hkj
        cases hkj
        exact absurd hki (habsent i hi)
      · rw [Function.update_of_ne hnej] at hkj
        exact hP.unique i hi j hj k₁ hki hkj

end Probing
