/-
# `Rtlog.Queue.Progress` — a call takes a bounded number of steps

No step of the queue waits for another thread.  A thread that is inside an operation
always has a step to make, and however the other threads move it makes few of them
before the operation returns (`left` counts those it may still have to make):

    try_enqueue    at most 11        dequeue    at most 13

which is so because the only loops in either are those of the free list.  A call of
`FreeList::try_get` or of `FreeList::add` is one step here, as in `Rtlog.Queue.Machine`.  It is
a loop around a `compare_exchange`, which another thread can make fail again and again; so
these numbers bound the operations without their calls of the free list, of which there is
at most one in each.
-/
import Rtlog.Queue.Refinement

namespace Rtlog.Queue

variable {ι κ α : Type}

/-! ## What producers leave alone -/

/-- The counters that consumers write. -/
structure ImplicitProducer.SameCounts (p p' : ImplicitProducer) : Prop where
  headIndex : p'.headIndex = p.headIndex
  optimistic : p'.dequeueOptimisticCount = p.dequeueOptimisticCount
  overcommit : p'.dequeueOvercommit = p.dequeueOvercommit

variable [DecidableEq ι] [DecidableEq κ] {q q' : ConcurrentQueue ι κ α} {i : ι}

omit [DecidableEq κ] in
theorem ConcurrentQueue.sameCounts_setProducer {p : ImplicitProducer}
    (h : (q.producers i).SameCounts p) (j : ι) :
    (q.producers j).SameCounts ((q.setProducer i p).producers j) := by
  rcases eq_or_ne j i with rfl | hne
  · simp only [ConcurrentQueue.setProducer, Function.update_self]
    exact h
  · simp only [ConcurrentQueue.setProducer, Function.update_of_ne hne]
    exact ⟨rfl, rfl, rfl⟩

omit [DecidableEq κ] in
theorem ConcurrentQueue.enqueueStep_keeps (hs : q.enqueueStep i = some q') :
    q'.deq = q.deq ∧ ∀ j, (q.producers j).SameCounts (q'.producers j) := by
  have hsame : ∀ j, (q.producers j).SameCounts (q.producers j) := fun j => ⟨rfl, rfl, rfl⟩
  cases he : q.enq i with
  | construct a =>
      cases hb : (q.producers i).tailBlock with
      | none =>
          simp only [ConcurrentQueue.enqueueStep, he, hb, Option.some.injEq] at hs
          subst hs
          exact ⟨rfl, hsame⟩
      | some b =>
          simp only [ConcurrentQueue.enqueueStep, he, hb, Option.some.injEq] at hs
          subst hs
          exact ⟨rfl, hsame⟩
  | storeKey | storeTail | rewind | unpublish | publish | storeTailIndex =>
      simp only [ConcurrentQueue.enqueueStep, he, Option.some.injEq] at hs
      subst hs
      exact ⟨rfl, q.sameCounts_setProducer ⟨rfl, rfl, rfl⟩⟩
  | loadHead | insertEntry | loadPool | fetchPool | resetEmpty =>
      simp only [ConcurrentQueue.enqueueStep, he, Option.some.injEq] at hs
      subst hs
      exact ⟨rfl, hsame⟩
  | _ => simp [ConcurrentQueue.enqueueStep, he] at hs

omit [DecidableEq κ] in
theorem ConcurrentQueue.tryGetStep_keeps {got : Option BlockId}
    (hs : q.tryGetStep i got = some q') :
    q'.deq = q.deq ∧ ∀ j, (q.producers j).SameCounts (q'.producers j) := by
  have hsame : ∀ j, (q.producers j).SameCounts (q.producers j) := fun j => ⟨rfl, rfl, rfl⟩
  cases he : q.enq i with
  | tryGet a s =>
      cases got with
      | none =>
          simp only [ConcurrentQueue.tryGetStep, he, Option.some.injEq] at hs
          subst hs
          exact ⟨rfl, hsame⟩
      | some b =>
          simp only [ConcurrentQueue.tryGetStep, he, Option.ite_none_right_eq_some,
            Option.some.injEq] at hs
          obtain ⟨-, rfl⟩ := hs
          exact ⟨rfl, hsame⟩
  | _ => simp [ConcurrentQueue.tryGetStep, he] at hs

/-! ## Consumers -/

/-- How many steps a call may still take, `FreeList::add` being one. -/
def Dequeue.left : Dequeue ι α → Nat
  | .idle _ | .undefined => 0
  | .addFree .. | .fetchOvercommit _ => 1
  | .clearValue .. => 2
  | .setEmpty .. => 3
  | .take .. => 4
  | .loadValue .. => 5
  | .loadKey .. => 6
  | .loadIndexTail .. => 7
  | .fetchHead _ => 8
  | .reloadTail .. => 9
  | .fetchOptimistic .. => 10
  | .loadOptimistic .. => 11
  | .loadOvercommit .. => 12
  | .loadTail _ => 13

/-- A step of a call leaves fewer to take, and concerns no other thread. -/
theorem ConcurrentQueue.dequeueStep_left {c : κ} (hs : q.dequeueStep c = some q') :
    (q'.deq c).left < (q.deq c).left ∧ (∀ e, e ≠ c → q'.deq e = q.deq e) ∧ q'.enq = q.enq := by
  have hset : ∀ (x : ConcurrentQueue ι κ α) (d : Dequeue ι α), x.deq = q.deq ∧ x.enq = q.enq →
      d.left < (q.deq c).left →
      ((x.setDeq c d).deq c).left < (q.deq c).left ∧
        (∀ e, e ≠ c → (x.setDeq c d).deq e = q.deq e) ∧ (x.setDeq c d).enq = q.enq := by
    intro x d hx hlt
    simp only [ConcurrentQueue.setDeq, Function.update_self]
    exact ⟨hlt, fun e hne => by rw [Function.update_of_ne hne, hx.1], hx.2⟩
  cases hd : q.deq c with
  | idle | undefined => simp [ConcurrentQueue.dequeueStep, hd] at hs
  | take i x s b =>
      cases ha : (q.blocks b).elements (pos x) with
      | none =>
          simp only [ConcurrentQueue.dequeueStep, hd, ha, Option.some.injEq] at hs
          exact hd ▸ hs ▸ hset _ _ ⟨rfl, rfl⟩ (by simp [hd, Dequeue.left])
      | some a =>
          simp only [ConcurrentQueue.dequeueStep, hd, ha, Option.some.injEq] at hs
          exact hd ▸ hs ▸ hset _ _ ⟨rfl, rfl⟩ (by simp [hd, Dequeue.left])
  | loadOptimistic | reloadTail | loadValue | setEmpty =>
      simp only [ConcurrentQueue.dequeueStep, hd, Option.some.injEq] at hs
      refine hd ▸ hs ▸ hset _ _ ⟨rfl, rfl⟩ ?_
      rw [hd]
      split <;> simp [Dequeue.left]
  | _ =>
      simp only [ConcurrentQueue.dequeueStep, hd, Option.some.injEq] at hs
      exact hd ▸ hs ▸ hset _ _ ⟨rfl, rfl⟩ (by simp [hd, Dequeue.left])

/-- A consumer that is inside a call has a step to make. -/
theorem ConcurrentQueue.dequeueStep_isSome {c : κ} (hidle : ∀ last, q.deq c ≠ .idle last)
    (hundef : q.deq c ≠ .undefined) : (q.dequeueStep c).isSome = true := by
  cases hd : q.deq c with
  | idle last => exact absurd hd (hidle last)
  | undefined => exact absurd hd hundef
  | take i x s b =>
      cases ha : (q.blocks b).elements (pos x) with
      | none => simp [ConcurrentQueue.dequeueStep, hd, ha]
      | some a => simp [ConcurrentQueue.dequeueStep, hd, ha]
  | _ => simp [ConcurrentQueue.dequeueStep, hd]

/-! ## Producers -/

/-- How many steps a call may still take, `FreeList::try_get` being one. -/
def Enqueue.left : Enqueue α → Nat
  | .idle _ | .undefined => 0
  | .storeTailIndex _ | .unpublish _ => 1
  | .construct _ | .rewind _ => 2
  | .publish .. => 3
  | .resetEmpty .. => 4
  | .tryGet .. => 5
  | .fetchPool .. => 6
  | .loadPool .. => 7
  | .storeTail .. => 8
  | .storeKey .. => 9
  | .insertEntry _ => 10
  | .loadHead _ => 11

omit [DecidableEq κ] in
/-- Moving the thread of producer `i` and of nobody else. -/
theorem ConcurrentQueue.setEnq_left {x : ConcurrentQueue ι κ α} {e : Enqueue α}
    (hx : x.enq = q.enq) (hlt : e.left < (q.enq i).left) :
    ((x.setEnq i e).enq i).left < (q.enq i).left ∧
      ∀ j, j ≠ i → (x.setEnq i e).enq j = q.enq j := by
  simp only [ConcurrentQueue.setEnq, Function.update_self]
  exact ⟨hlt, fun j hne => by rw [Function.update_of_ne hne, hx]⟩

omit [DecidableEq κ] in
theorem ConcurrentQueue.enqueueStep_left (hs : q.enqueueStep i = some q') :
    (q'.enq i).left < (q.enq i).left ∧ ∀ j, j ≠ i → q'.enq j = q.enq j := by
  cases he : q.enq i with
  | idle | undefined | tryGet => simp [ConcurrentQueue.enqueueStep, he] at hs
  | construct a =>
      cases hb : (q.producers i).tailBlock with
      | none =>
          simp only [ConcurrentQueue.enqueueStep, he, hb, Option.some.injEq] at hs
          exact he ▸ hs ▸ setEnq_left rfl (by simp [he, Enqueue.left])
      | some b =>
          simp only [ConcurrentQueue.enqueueStep, he, hb, Option.some.injEq] at hs
          exact he ▸ hs ▸ setEnq_left rfl (by simp [he, Enqueue.left])
  | loadHead | insertEntry | loadPool | fetchPool =>
      simp only [ConcurrentQueue.enqueueStep, he, Option.some.injEq] at hs
      refine he ▸ hs ▸ setEnq_left rfl ?_
      rw [he]
      split <;> simp [Enqueue.left]
  | _ =>
      simp only [ConcurrentQueue.enqueueStep, he, Option.some.injEq] at hs
      exact he ▸ hs ▸ setEnq_left rfl (by simp [he, Enqueue.left])

omit [DecidableEq κ] in
theorem ConcurrentQueue.tryGetStep_left {got : Option BlockId} (hs : q.tryGetStep i got = some q') :
    (q'.enq i).left < (q.enq i).left ∧ ∀ j, j ≠ i → q'.enq j = q.enq j := by
  cases he : q.enq i with
  | tryGet a s =>
      cases got with
      | none =>
          simp only [ConcurrentQueue.tryGetStep, he, Option.some.injEq] at hs
          exact he ▸ hs ▸ setEnq_left rfl (by simp [he, Enqueue.left])
      | some b =>
          simp only [ConcurrentQueue.tryGetStep, he, Option.ite_none_right_eq_some,
            Option.some.injEq] at hs
          exact he ▸ hs.2 ▸ setEnq_left rfl (by simp [he, Enqueue.left])
  | _ => simp [ConcurrentQueue.tryGetStep, he] at hs

omit [DecidableEq κ] in
/-- A producer that is inside a call has a step to make. -/
theorem ConcurrentQueue.enqueueStep_isSome (hidle : ∀ last, q.enq i ≠ .idle last)
    (hundef : q.enq i ≠ .undefined) :
    (q.enqueueStep i).isSome = true ∨ (q.tryGetStep i none).isSome = true := by
  cases he : q.enq i with
  | idle last => exact absurd he (hidle last)
  | undefined => exact absurd he hundef
  | tryGet a s => exact .inr (by simp [ConcurrentQueue.tryGetStep, he])
  | construct a =>
      cases hb : (q.producers i).tailBlock with
      | none => exact .inl (by simp [ConcurrentQueue.enqueueStep, he, hb])
      | some b => exact .inl (by simp [ConcurrentQueue.enqueueStep, he, hb])
  | _ => exact .inl (by simp [ConcurrentQueue.enqueueStep, he])

/-! ## Whole calls -/

/-- The steps of consumer `c` inside its calls. -/
def Action.ofConsumer (c : κ) : Action ι κ α → Bool
  | .dequeue d => d = c
  | _ => false

/-- The steps of the thread of producer `i` inside its calls. -/
def Action.ofProducer (i : ι) : Action ι κ α → Bool
  | .enqueue j | .tryGet j _ => j = i
  | _ => false

variable {act : Action ι κ α} {as : List (Action ι κ α)} {c : κ}

/-- A step either is one of consumer `c`, and leaves fewer, or does not concern it. -/
theorem ConcurrentQueue.step_deq (hs : q.step act = some q') (hcall : ∀ i, act ≠ .tryDequeue c i) :
    act.ofConsumer c = true ∧ (q'.deq c).left < (q.deq c).left ∨
      act.ofConsumer c = false ∧ q'.deq c = q.deq c := by
  cases act with
  | dequeue d =>
      obtain ⟨hlt, hother, -⟩ := dequeueStep_left hs
      rcases eq_or_ne d c with rfl | hne
      · exact .inl ⟨decide_eq_true rfl, hlt⟩
      · exact .inr ⟨decide_eq_false hne, hother c hne.symm⟩
  | tryDequeue d i =>
      have hne : c ≠ d := by
        rintro rfl
        exact hcall i rfl
      cases hd : q.deq d with
      | idle last =>
          simp only [ConcurrentQueue.step, hd, Option.some.injEq] at hs
          exact .inr ⟨rfl, hs ▸ Function.update_of_ne hne ..⟩
      | _ => simp [ConcurrentQueue.step, hd] at hs
  | enqueue i => exact .inr ⟨rfl, congrFun (enqueueStep_keeps hs).1 c⟩
  | tryGet i got => exact .inr ⟨rfl, congrFun (tryGetStep_keeps hs).1 c⟩
  | tryEnqueue i a =>
      cases he : q.enq i with
      | idle last =>
          simp only [ConcurrentQueue.step, he, Option.some.injEq] at hs
          exact .inr ⟨rfl, hs ▸ rfl⟩
      | _ => simp [ConcurrentQueue.step, he] at hs

theorem ConcurrentQueue.step_enq (hs : q.step act = some q') (hcall : ∀ a, act ≠ .tryEnqueue i a) :
    act.ofProducer i = true ∧ (q'.enq i).left < (q.enq i).left ∨
      act.ofProducer i = false ∧ q'.enq i = q.enq i := by
  cases act with
  | dequeue d => exact .inr ⟨rfl, congrFun (dequeueStep_left hs).2.2 i⟩
  | tryDequeue d j =>
      cases hd : q.deq d with
      | idle last =>
          simp only [ConcurrentQueue.step, hd, Option.some.injEq] at hs
          exact .inr ⟨rfl, hs ▸ rfl⟩
      | _ => simp [ConcurrentQueue.step, hd] at hs
  | enqueue j =>
      obtain ⟨hlt, hother⟩ := enqueueStep_left hs
      rcases eq_or_ne j i with rfl | hne
      · exact .inl ⟨decide_eq_true rfl, hlt⟩
      · exact .inr ⟨decide_eq_false hne, hother i hne.symm⟩
  | tryGet j got =>
      obtain ⟨hlt, hother⟩ := tryGetStep_left hs
      rcases eq_or_ne j i with rfl | hne
      · exact .inl ⟨decide_eq_true rfl, hlt⟩
      · exact .inr ⟨decide_eq_false hne, hother i hne.symm⟩
  | tryEnqueue j a =>
      have hne : i ≠ j := by
        rintro rfl
        exact hcall a rfl
      cases he : q.enq j with
      | idle last =>
          simp only [ConcurrentQueue.step, he, Option.some.injEq] at hs
          exact .inr ⟨rfl, hs ▸ Function.update_of_ne hne ..⟩
      | _ => simp [ConcurrentQueue.step, he] at hs

theorem ConcurrentQueue.run_deq (hcall : ∀ i, .tryDequeue c i ∉ as)
    (hrun : ConcurrentQueue.machine.run q as = some q') :
    as.countP (Action.ofConsumer c) + (q'.deq c).left ≤ (q.deq c).left := by
  have hall : ConcurrentQueue.machine.Along (fun _ act _ => ∀ i, act ≠ .tryDequeue c i) q as :=
    .of_forall_mem fun act hact i heq => hcall i (heq ▸ hact)
  refine hall.countP_add_le (μ := fun q => (q.deq c).left) (fun s act s' hs hact => ?_) hrun
  exact (step_deq hs hact).imp id fun h => ⟨h.1, congrArg Dequeue.left h.2⟩

theorem ConcurrentQueue.run_enq (hcall : ∀ a, .tryEnqueue i a ∉ as)
    (hrun : ConcurrentQueue.machine.run q as = some q') :
    as.countP (Action.ofProducer i) + (q'.enq i).left ≤ (q.enq i).left := by
  have hall : ConcurrentQueue.machine.Along (fun _ act _ => ∀ a, act ≠ .tryEnqueue i a) q as :=
    .of_forall_mem fun act hact a heq => hcall a (heq ▸ hact)
  refine hall.countP_add_le (μ := fun q => (q.enq i).left) (fun s act s' hs hact => ?_) hrun
  exact (step_enq hs hact).imp id fun h => ⟨h.1, congrArg Enqueue.left h.2⟩

omit [DecidableEq ι] in
theorem Dequeue.left_le (d : Dequeue ι α) : d.left ≤ 13 := by
  cases d <;> simp [Dequeue.left]

theorem Enqueue.left_le (e : Enqueue α) : e.left ≤ 11 := by
  cases e <;> simp [Enqueue.left]

/-- Wherever a run has come to, a thread inside a call is not blocked, and however the run
goes on, the call returns after so many steps of the thread, a call of the free list being
one of them. -/
theorem calls_bounded (blockCount : Nat) (blockIndex : ι → Bool)
    (value : ι → Size → Option BlockId) {bs : List (Action ι κ α)}
    (hw : ConcurrentQueue.machine.Along (fun q _ _ => q.Within)
      (.initial blockCount blockIndex value) as)
    (hrun : ConcurrentQueue.machine.run (.initial blockCount blockIndex value) as = some q)
    (hrun' : ConcurrentQueue.machine.run q bs = some q') :
    (∀ c, ((∃ last, q.deq c = .idle last) ∨ (q.step (.dequeue c)).isSome = true) ∧
      ((∀ i, .tryDequeue c i ∉ bs) → bs.countP (Action.ofConsumer c) ≤ 13)) ∧
    ∀ i, ((∃ last, q.enq i = .idle last) ∨ (q.step (.enqueue i)).isSome = true ∨
        (q.step (.tryGet i none)).isSome = true) ∧
      ((∀ a, .tryEnqueue i a ∉ bs) → bs.countP (Action.ofProducer i) ≤ 11) := by
  obtain ⟨v, -, h, -⟩ := (Good.initial blockCount blockIndex value).run .start hw hrun
  refine ⟨fun c => ⟨?_, fun hcall => ?_⟩, fun i => ⟨?_, fun hcall => ?_⟩⟩
  · by_cases hidle : ∃ last, q.deq c = .idle last
    · exact .inl hidle
    · exact .inr (ConcurrentQueue.dequeueStep_isSome (fun last hd => hidle ⟨last, hd⟩)
        (h.shows.deq c))
  · have hle := ConcurrentQueue.run_deq hcall hrun'
    have := (q.deq c).left_le
    omega
  · by_cases hidle : ∃ last, q.enq i = .idle last
    · exact .inl hidle
    · exact .inr (ConcurrentQueue.enqueueStep_isSome (fun last he => hidle ⟨last, he⟩)
        (h.shows.enq i))
  · have hle := ConcurrentQueue.run_enq hcall hrun'
    have := (q.enq i).left_le
    omega

/-- Where the two consumers of `race` are called, and what is left of it. -/
theorem calls_bounded_race : ∃ q q' : ConcurrentQueue Unit Bool Nat,
    ConcurrentQueue.machine.run (.initial 2 (fun _ => true) fun _ _ => none) (race.take 13) =
      some q ∧ ConcurrentQueue.machine.run q (race.drop 13) = some q' ∧
      ∀ c, (race.drop 13).countP (Action.ofConsumer c) ≤ 13 := by
  have hsome : ((ConcurrentQueue.machine.run (.initial 2 (fun _ => true) fun _ _ => none)
      (race.take 13)).bind fun q =>
        ConcurrentQueue.machine.run q (race.drop 13)).isSome = true := by
    decide +kernel
  obtain ⟨q', hq'⟩ := Option.isSome_iff_exists.mp hsome
  obtain ⟨q, hrun, hrun'⟩ := Option.bind_eq_some_iff.mp hq'
  refine ⟨q, q', hrun, hrun', fun c => ?_⟩
  exact ((calls_bounded 2 (fun _ => true) (fun _ _ => none) (by decide +kernel) hrun hrun').1
    c).2 fun i => by cases c <;> simp [race]

end Rtlog.Queue
