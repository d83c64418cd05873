/-
# `Rtlog.Queue.WaitFree` — how long `try_dequeue` takes

With one consumer a call of `try_dequeue` looks at each producer of the list at most once,
and calls `dequeue` at most once.  So however the producers are scheduled it returns after
a number of steps of its own that depends on the list alone:

    producerListTail.load                  1
    size_approx, on each producer          2 for each
    best->dequeue                          1 + 13

The last is with `FreeList::add` as one step (`Rtlog.Queue.Progress`).  That is a loop around a
`compare_exchange`, so that what is bounded is the call apart from what it does inside `add`,
which it calls at most once.
-/
import Rtlog.Queue.Scanning

namespace Rtlog.Queue

variable {ι α : Type}

/-! ## What is left of a call -/

/-- The steps that a call has left, at most, when `dequeue` has `inside` left, and
`FreeList::add` is one. -/
def TryDequeue.left (inside : Nat) : TryDequeue ι α → Nat
  | .loadTail _ ptrs _ => 2 * (ptrs.length + 1) + 14
  | .loadHead _ ptrs _ _ => 2 * ptrs.length + 15
  | .callBest _ => 14
  | .inBest _ => inside
  | _ => 0

theorem TryDequeue.left_visit (score : Score ι) (ptrs : List ι) (n : Nat) :
    (score.visit ptrs : TryDequeue ι α).left n ≤ 2 * ptrs.length + 14 := by
  have hdone : (score.done : TryDequeue ι α).left n ≤ 14 := by
    unfold Score.done
    split
    · cases score.best <;> simp [TryDequeue.left]
    · simp [TryDequeue.left]
  cases ptrs with
  | nil => exact hdone
  | cons ptr ptrs =>
      rw [Score.visit]
      split
      · exact Nat.le_refl _
      · exact hdone.trans (Nat.le_add_left ..)

/-- No call begins in the middle of another. -/
theorem Score.visit_ne_loadList (score : Score ι) (ptrs : List ι) :
    (score.visit ptrs : TryDequeue ι α) ≠ .loadList := by
  have hdone : (score.done : TryDequeue ι α) ≠ .loadList := by
    unfold Score.done
    split
    · cases score.best <;> simp
    · simp
  cases ptrs with
  | nil => exact hdone
  | cons ptr ptrs =>
      rw [Score.visit]
      split
      · simp
      · exact hdone

namespace ListedQueue

variable [DecidableEq ι] {s s' : ListedQueue ι Unit α} {v : View ι Unit α} {r : Option α}

def left (s : ListedQueue ι Unit α) : Nat := (s.scan ()).left (s.queue.deq ()).left

def Action.isNext : Action ι Unit α → Bool
  | .next _ => true
  | _ => false

theorem Ok.left_next (h : s.Ok v r) (hp : s.scan () ≠ .loadList)
    (hs : s.tryDequeueStep () = some s') : s'.left < s.left ∧ s'.scan () ≠ .loadList := by
  have hfinds := h.finds
  unfold tryDequeueStep at hs
  unfold ListedQueue.left
  cases hscan : s.scan () with
  | idle | undefined => simp [hscan] at hs
  | loadList => exact absurd hscan hp
  | loadTail ptr ptrs score =>
      simp only [hscan, Option.some.injEq] at hs
      subst hs
      rw [scan_goto]
      exact ⟨by simp only [TryDequeue.left]; omega, by simp⟩
  | loadHead ptr ptrs score tail =>
      simp only [hscan, Option.some.injEq] at hs
      subst hs
      rw [scan_goto]
      exact ⟨Nat.lt_of_le_of_lt (TryDequeue.left_visit ..) (Nat.lt_succ_self _),
        Score.visit_ne_loadList _ _⟩
  | callBest best =>
      rw [hscan] at hfinds
      obtain ⟨⟨last, hd⟩, -⟩ := hfinds
      simp only [hscan, Option.map_eq_some_iff] at hs
      obtain ⟨q, hq, rfl⟩ := hs
      simp only [ConcurrentQueue.step, hd, Option.some.injEq] at hq
      have hloads : q.deq () = .loadTail best := by
        rw [← hq]
        simp only [ConcurrentQueue.setDeq, Function.update_self]
      rw [scan_goto]
      refine ⟨?_, by simp⟩
      show (q.deq ()).left < 14
      rw [hloads]
      exact Nat.lt_succ_self 13
  | inBest best =>
      simp only [hscan, Option.map_eq_some_iff] at hs
      obtain ⟨q, hq, rfl⟩ := hs
      obtain ⟨hlt, -⟩ := ConcurrentQueue.dequeueStep_left hq
      rw [scan_goto]
      unfold Dequeue.back
      split
      · exact ⟨Nat.lt_of_le_of_lt (Nat.zero_le _) hlt, by simp⟩
      · exact ⟨Nat.lt_of_le_of_lt (Nat.zero_le _) hlt, by simp⟩
      · exact ⟨hlt, by simp⟩
  | reloadList | callNext | inNext =>
      rw [hscan] at hfinds
      exact hfinds.elim

/-- What others do takes nothing from what is left. -/
theorem left_other {act : Action ι Unit α} (hs : s.step act = some s')
    (hcall : act ≠ .tryDequeue ()) (hnext : act.isNext = false) :
    s'.scan = s.scan ∧ s'.left = s.left := by
  have hproduce : ∀ {q : ConcurrentQueue ι Unit α} {act : Queue.Action ι Unit α} {i : ι},
      act.producer? = some i → s.queue.step act = some q → s' = { s with queue := q } →
      s'.scan = s.scan ∧ s'.left = s.left := by
    rintro q act i hact hq rfl
    obtain ⟨hdeq, -⟩ := s.queue.produce_keeps hq hact
    refine ⟨rfl, ?_⟩
    show (s.scan ()).left (q.deq ()).left = s.left
    rw [hdeq]
    rfl
  cases act with
  | addProducer i =>
      simp only [ListedQueue.step] at hs
      split at hs
      · cases hs
      · cases hs
        exact ⟨rfl, rfl⟩
  | tryEnqueue i a =>
      simp only [ListedQueue.step] at hs
      split at hs
      · obtain ⟨q, hq, rfl⟩ := Option.map_eq_some_iff.mp hs
        exact hproduce rfl hq rfl
      · cases hs
  | enqueue i =>
      obtain ⟨q, hq, rfl⟩ := Option.map_eq_some_iff.mp hs
      exact hproduce rfl hq rfl
  | tryGet i got =>
      obtain ⟨q, hq, rfl⟩ := Option.map_eq_some_iff.mp hs
      exact hproduce rfl hq rfl
  | tryDequeue c => exact absurd rfl hcall
  | next c => cases hnext

theorem Ok.left_run {bs : List (Action ι Unit α)} (h : s.Ok v r) (hp : s.scan () ≠ .loadList)
    (hrun : machine.run s bs = some s') (hbs : .tryDequeue () ∉ bs) :
    bs.countP Action.isNext + s'.left ≤ s.left := by
  induction bs generalizing s v r with
  | nil =>
      cases hrun
      exact Nat.le_of_eq (Nat.zero_add _)
  | cons act bs ih =>
      obtain ⟨s₁, hs, hrest⟩ := (Machine.run_cons_eq_some _).mp hrun
      obtain ⟨hact, hnot⟩ := not_or.mp (mt List.mem_cons.mpr hbs)
      obtain ⟨v₁, r₁, -, hok, -⟩ := h.step hs
      cases hnext : act.isNext with
      | true =>
          obtain ⟨c, rfl⟩ : ∃ c, act = .next c := by
            cases act with
            | next c => exact ⟨c, rfl⟩
            | _ => cases hnext
          obtain ⟨hlt, hp₁⟩ := h.left_next hp hs
          have hle := ih hok hp₁ hrest hnot
          rw [List.countP_cons_of_pos hnext]
          omega
      | false =>
          obtain ⟨hscan, hsame⟩ := left_other hs (Ne.symm hact) hnext
          have hle := ih hok (by rw [hscan]; exact hp) hrest hnot
          rw [List.countP_cons_of_neg (by rw [hnext]; decide)]
          omega

/-- The consumer is never blocked. -/
theorem Ok.enabled (h : s.Ok v r) :
    (∃ last, s.scan () = .idle last) ∨ (s.step (.next ())).isSome = true := by
  have hfinds := h.finds
  cases hscan : s.scan () with
  | idle last => exact .inl ⟨last, rfl⟩
  | loadList | loadTail | loadHead =>
      exact .inr (by simp [ListedQueue.step, tryDequeueStep, hscan])
  | callBest best =>
      rw [hscan] at hfinds
      obtain ⟨⟨last, hd⟩, -⟩ := hfinds
      exact .inr (by simp [ListedQueue.step, tryDequeueStep, hscan, ConcurrentQueue.step, hd])
  | inBest best =>
      rw [hscan] at hfinds
      have hsome := ConcurrentQueue.dequeueStep_isSome (fun last hd => hfinds.1 ⟨last, hd⟩)
        (h.good.shows.deq ())
      refine .inr ?_
      simp only [ListedQueue.step, tryDequeueStep, hscan, Option.isSome_map]
      exact hsome
  | reloadList | callNext | inNext | undefined =>
      rw [hscan] at hfinds
      exact hfinds.elim

/-- A call of `try_dequeue` returns after at most two steps for each producer it finds in
the list, and fifteen more, of which a call of `FreeList::add` is one. -/
theorem try_dequeue_bounded (blockCount : Nat) (blockIndex : ι → Bool)
    (value : ι → Size → Option BlockId) {as bs : List (Action ι Unit α)}
    (hrun : machine.run (.initial blockCount blockIndex value) as = some s)
    (hp : s.scan () = .loadList) (hrun' : machine.run s (.next () :: bs) = some s')
    (hbs : .tryDequeue () ∉ bs) :
    (.next () :: bs).countP Action.isNext ≤ 2 * s.producerListTail.length + 15 ∧
      ((∃ last, s'.scan () = .idle last) ∨ (s'.step (.next ())).isSome = true) := by
  obtain ⟨v, r, -, hok⟩ := Ok.reached hrun
  obtain ⟨s₁, hs, hrun'⟩ := (Machine.run_cons_eq_some _).mp hrun'
  obtain ⟨v₁, r₁, -, hok₁, -⟩ := hok.step (show s.step (.next ()) = some s₁ from hs)
  obtain rfl : s.goto () (Score.zero.visit s.producerListTail) = s₁ := by
    simpa [machine, ListedQueue.step, tryDequeueStep, hp] using hs
  constructor
  · have hle := hok₁.left_run (by rw [scan_goto]; exact Score.visit_ne_loadList _ _) hrun' hbs
    have hvisit : (s.goto () (Score.zero.visit s.producerListTail)).left ≤
        2 * s.producerListTail.length + 14 := by
      rw [ListedQueue.left, scan_goto]
      exact TryDequeue.left_visit ..
    rw [List.countP_cons_of_pos rfl]
    omega
  · have hwhole : machine.run (.initial blockCount blockIndex value) (as ++ .next () :: bs) =
        some s' := by
      rw [Machine.run_append, hrun]
      exact (Machine.run_cons_eq_some _).mpr ⟨_, hs, hrun'⟩
    obtain ⟨v', r', -, hok'⟩ := Ok.reached hwhole
    exact hok'.enabled

theorem try_dequeue_bounded_pickUp : ∃ s s' : ListedQueue Bool Unit Nat,
    machine.run (.initial 2 (fun _ => true) fun _ _ => none) (pickUp.take 14) = some s ∧
      s.scan () = .loadList ∧ s.producerListTail = [false, true] ∧
      machine.run s (pickUp.drop 14) = some s' ∧
      (pickUp.drop 14).countP Action.isNext ≤ 2 * 2 + 15 ∧
      ((∃ last, s'.scan () = .idle last) ∨ (s'.step (.next ())).isSome = true) := by
  have hplaces : (machine.run (.initial 2 (fun _ => true) fun _ _ => none)
      (pickUp.take 14)).map (fun s => (s.scan (), s.producerListTail,
        (machine.run s (pickUp.drop 14)).isSome)) =
      some (.loadList, [false, true], true) := by decide +kernel
  obtain ⟨s, hrun, hs⟩ := Option.map_eq_some_iff.mp hplaces
  simp only [Prod.mk.injEq] at hs
  obtain ⟨hp, hlist, hsome⟩ := hs
  obtain ⟨s', hrun'⟩ := Option.isSome_iff_exists.mp hsome
  have hrun' : machine.run s (.next () :: pickUp.drop 15) = some s' := hrun'
  have hbound := try_dequeue_bounded 2 (fun _ => true) (fun _ _ => none) hrun hp hrun'
    (by simp [pickUp])
  rw [hlist] at hbound
  exact ⟨s, s', hrun, hp, hlist, hrun', hbound⟩

end ListedQueue

end Rtlog.Queue
