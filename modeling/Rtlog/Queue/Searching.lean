/-
# `Rtlog.Queue.Searching` — a search of a table ends

"Not an infinite loop because at least one slot is free in the hash table": however many
threads put themselves into a table while it is searched, a search of it looks at no slot
twice (`search_bounded`).  What becomes less with each step of the search is how far it is
from having been round; the steps of others leave that as it is (`Frame`).
-/
import Rtlog.Queue.Producers

namespace Rtlog.Queue

open Probing

variable {ι : Type} {hashedId : ι → Nat} {g : Ghost ι} {s s' : ProducerHash ι} {t u : ι}
  {main hash : HashId} {index : Nat}

/-- The table that is searched for the thread's own id. -/
def GetOrAdd.searching : GetOrAdd → Option (HashId × HashId)
  | .probe main hash _ => some (main, hash)
  | _ => none

theorem GetOrAdd.searching_eq_some {p : GetOrAdd} (h : p.searching = some (main, hash)) :
    ∃ index, p = .probe main hash index := by
  cases p with
  | probe main' hash' index =>
      cases h
      exact ⟨index, rfl⟩
  | _ => cases h

namespace ProducerHash

/-! ## Steps of other threads -/

/-- What a step of thread `u` leaves. -/
structure Frame (u : ι) (s s' : ProducerHash ι) : Prop where
  capacity : ∀ k < s.allocated, (s'.hashes k).capacity = (s.hashes k).capacity
  place : ∀ t, t ≠ u → s'.place t = s.place t

variable [DecidableEq ι]

theorem Frame.goto {x : ProducerHash ι} {p : GetOrAdd} (hplace : x.place = s.place)
    (hcapacity : ∀ k < s.allocated, (x.hashes k).capacity = (s.hashes k).capacity) :
    Frame u s (x.goto u p) where
  capacity := hcapacity
  place t ht := (Function.update_of_ne ht ..).trans (congrFun hplace t)

omit [DecidableEq ι] in
theorem setEntry_capacity (value : Option ProducerId) (k : HashId) :
    ((s.setEntry t main index value).hashes k).capacity = (s.hashes k).capacity := by
  unfold setEntry
  rcases eq_or_ne k main with rfl | hk
  · simp only [Function.update_self]
  · simp only [Function.update_of_ne hk]

theorem Frame.next (hs : s.nextStep hashedId u = some s') : Frame u s s' := by
  simp only [nextStep] at hs
  split at hs
  all_goals try split at hs
  all_goals cases hs
  all_goals
    first
    | exact .goto rfl fun _ _ => rfl
    | exact .goto rfl fun k _ => setEntry_capacity _ k

theorem Frame.malloc {ok : Bool} (hs : s.mallocStep u ok = some s') : Frame u s s' := by
  simp only [mallocStep] at hs
  split at hs
  all_goals cases hs
  all_goals try exact .goto rfl fun _ _ => rfl
  refine .goto rfl fun k hk => ?_
  show (Function.update s.hashes s.allocated _ k).capacity = _
  rw [Function.update_of_ne (Nat.ne_of_lt hk)]

theorem Frame.step {a : HashAction ι} (hs : s.step hashedId a = some s') :
    Frame a.thread s s' := by
  cases a with
  | next t => exact .next hs
  | malloc t ok => exact .malloc hs
  | call t | weak t =>
      simp only [ProducerHash.step] at hs
      split at hs
      · cases hs
        exact .goto rfl fun _ _ => rfl
      · cases hs

/-! ## Steps of the search -/

/-- How many slots a search that is at `index` has yet to look at, if it finds none empty. -/
def left (hashedId : ι → Nat) (s : ProducerHash ι) (t : ι) (hash : HashId) (index : Nat) : Nat :=
  let capacity := (s.hashes hash).capacity
  capacity - distance capacity (hashedId t) ((s.hashes hash).mask index)

omit [DecidableEq ι] in
/-- The search has not been round. -/
theorem Ok.left_pos (h : s.Ok hashedId g) (hp : s.place t = .probe main hash index) :
    0 < left hashedId s t hash index := by
  obtain ⟨-, -, hmain, hle, -, d, hd, hpassed⟩ := h.atPlace hp
  obtain ⟨i, hi, hempty⟩ := (h.hash_of_le (Nat.le_trans hle hmain)).exists_empty h.ranked
  have hlt := hpassed.lt hi hempty
  rw [left, hd, distance_slot hlt]
  exact Nat.sub_pos_of_lt hlt

/-- A step of the thread that stays in the table takes the search one slot further. -/
theorem Ok.next_probe (h : s.Ok hashedId g) (hp : s.place t = .probe main hash index)
    (hs : s.nextStep hashedId t = some s') {index' : Nat}
    (hp' : s'.place t = .probe main hash index') :
    s'.hashes = s.hashes ∧ index' = (s.hashes hash).mask index + 1 ∧
      ∃ k, (s.hashes hash).key ((s.hashes hash).mask index) = some k ∧ k ≠ t := by
  obtain ⟨-, -, hmain, hle, -⟩ := h.atPlace hp
  have hhash := h.hash_of_le (Nat.le_trans hle hmain)
  simp only [nextStep, hp] at hs
  split at hs
  · next k hkey =>
      cases hs
      rw [goto_place] at hp'
      unfold ProducerHash.probed at hp'
      split at hp'
      · split at hp' <;> cases hp'
      · next hne =>
          cases hp'
          exact ⟨rfl, rfl, k, hkey, hne⟩
  · cases hs
    rw [goto_place, ProducerHash.missed, hhash.prev] at hp'
    -- the table below is another one
    cases hash with
    | zero => cases hp'
    | succ hash =>
        have hhash' : hash = hash + 1 := (GetOrAdd.probe.inj hp').2.1
        omega

theorem nextStep_of_probe {a : HashAction ι} (hs : s.step hashedId a = some s')
    (hp : s.place a.thread = .probe main hash index) :
    s.nextStep hashedId a.thread = some s' := by
  cases a with
  | next u => exact hs
  | call u | weak u =>
      change s.place u = _ at hp
      simp [ProducerHash.step, hp] at hs
  | malloc u ok =>
      change s.place u = _ at hp
      simp [ProducerHash.step, mallocStep, hp] at hs

theorem Ok.left_step {a : HashAction ι} {index' : Nat} (h : s.Ok hashedId g)
    (hp : s.place t = .probe main hash index) (hs : s.step hashedId a = some s')
    (hp' : s'.place t = .probe main hash index') :
    left hashedId s' t hash index' + (if a.thread = t then 1 else 0) =
      left hashedId s t hash index := by
  obtain ⟨-, -, hmain, hle, -, d, hd, hpassed⟩ := h.atPlace hp
  have hhash := h.hash_of_le (Nat.le_trans hle hmain)
  split
  · next heq =>
      subst heq
      obtain ⟨m, hm⟩ := hhash.capacity
      obtain ⟨i, hi, hempty⟩ := hhash.exists_empty h.ranked
      obtain ⟨hhashes, rfl, k, hkey, hne⟩ := h.next_probe hp (nextStep_of_probe hs hp) hp'
      have hlt : d + 1 < (s.hashes hash).capacity :=
        (hpassed.succ (hd ▸ hkey) hne).lt hi hempty
      have hnext : (s.hashes hash).mask ((s.hashes hash).mask index + 1) =
          slot (s.hashes hash).capacity (hashedId a.thread) (d + 1) := by
        rw [ImplicitProducerHash.mask_eq hm, hd, slot, slot, Nat.mod_add_mod, Nat.add_assoc]
      rw [left, left, hhashes, hnext, hd, distance_slot hlt, distance_slot (Nat.lt_of_succ_lt hlt)]
      omega
  · next hne =>
      have hlt : hash < s.allocated := Nat.lt_of_le_of_lt (Nat.le_trans hle hmain) h.main_lt
      have hframe := Frame.step hs
      have hplace := hframe.place t (Ne.symm hne)
      rw [hp, hp'] at hplace
      cases hplace
      rw [left, left, ImplicitProducerHash.mask, hframe.capacity hash hlt]
      rfl

/-- A search takes no more steps than there are slots left. -/
theorem Ok.search (bs : List (HashAction ι)) : ∀ {s : ProducerHash ι} {g : Ghost ι} {index : Nat},
    s.Ok hashedId g → s.place t = .probe main hash index →
    (machine hashedId).Along (fun _ _ s' => (s'.place t).searching = some (main, hash)) s bs →
    (machine hashedId).run s bs = some s' →
      bs.countP (fun a => decide (a.thread = t)) < left hashedId s t hash index := by
  induction bs with
  | nil =>
      intro s g index h hp _ _
      exact h.left_pos hp
  | cons a bs ih =>
      intro s g index h hp hsearch hrun
      obtain ⟨s₁, hs, hrun⟩ := ((machine hashedId).run_cons_eq_some).mp hrun
      obtain ⟨hp₁, hsearch⟩ := hsearch s₁ hs
      obtain ⟨index₁, hp₁⟩ := GetOrAdd.searching_eq_some hp₁
      obtain ⟨g₁, -, h₁⟩ := h.step hs
      have hlt := ih h₁ hp₁ hsearch hrun
      have hleft := h.left_step hp hs hp₁
      rw [List.countP_cons]
      simp only [decide_eq_true_eq]
      omega

end ProducerHash

open ProducerHash

/-- In every run, a thread that searches a table for itself takes fewer steps there than the
table has slots, whatever the other threads put into the table meanwhile. -/
theorem search_bounded [DecidableEq ι] {as bs : List (HashAction ι)}
    (hrun : (machine hashedId).run initial as = some s)
    (hp : (s.place t).searching = some (main, hash))
    (hsearch : (machine hashedId).Along
      (fun _ _ s' => (s'.place t).searching = some (main, hash)) s bs)
    (hrun' : (machine hashedId).run s bs = some s') :
    bs.countP (fun a => decide (a.thread = t)) < (s.hashes hash).capacity := by
  obtain ⟨g, -, h⟩ := Ok.run hrun
  obtain ⟨index, hp⟩ := GetOrAdd.searching_eq_some hp
  calc bs.countP (fun a => decide (a.thread = t))
      < left hashedId s t hash index := h.search bs hp hsearch hrun'
    _ ≤ (s.hashes hash).capacity := Nat.sub_le ..

/-- The thread that comes second finds the other in its slot, and looks at the next. -/
theorem search_bounded_collision : ∃ s : ProducerHash Bool,
    (machine fun _ => 5).run initial (collision.take 23) = some s ∧
      [HashAction.next false].countP (fun a => decide (a.thread = false)) <
        (s.hashes 0).capacity := by
  have hstart : ((machine fun _ : Bool => 5).run initial (collision.take 23)).map
      (fun s => ((s.place false).searching,
        decide ((machine fun _ : Bool => 5).Along
          (fun _ _ s' => (s'.place false).searching = some (0, 0)) s [.next false]),
        ((machine fun _ : Bool => 5).run s [.next false]).isSome)) =
      some (some (0, 0), true, true) := by decide +kernel
  obtain ⟨s, hrun, hs⟩ := Option.map_eq_some_iff.mp hstart
  obtain ⟨hp, hs⟩ := Prod.mk.inj hs
  obtain ⟨hsearch, hsome⟩ := Prod.mk.inj hs
  obtain ⟨s', hrun'⟩ := Option.isSome_iff_exists.mp hsome
  exact ⟨s, hrun, search_bounded hrun hp (of_decide_eq_true hsearch) hrun'⟩

end Rtlog.Queue
