/-
# `Rtlog.Queue.Serial` — the queue with one consumer

`rtlog` has one thread that dequeues.  The counters that let consumers overtake
each other are then idle:

    dequeueOvercommit         0, as `fetchOvercommit` is not reached
    dequeueOptimisticCount    headIndex, and one more between the two `fetch_add`

so that `Within` need not be asked for: a run may be of any length, and turn every
counter over.  And a call on a producer is answered as if it were made at once, at
its first load (`Serial.expects`): with the front of the lane, or with nothing when
the lane is empty, whatever is put in before it returns.
-/
import Rtlog.Queue.Progress

namespace Rtlog.Queue

variable {ι α : Type}

/-! ## One consumer -/

/-- The producer of whose tickets a thread holds one. -/
def Dequeue.ticket? : Dequeue ι α → Option ι
  | .reloadTail i .. | .fetchHead i | .fetchOvercommit i => some i
  | _ => none

section Expects

variable {κ : Type}

/-- A call on producer `i`, which has read `tail` as its `tailIndex`, is to return `r`. -/
def Seen (t : LaneQueue ι κ α) (producers : ι → ImplicitProducer) (i : ι) (tail : Size)
    (r : Option α) : Prop :=
  if circularLessThan (producers i).headIndex tail then t.Front i r else r = none

/-- Consumer `c`, when it is alone, is to return `r`, or has just done so. -/
def Expects (t : LaneQueue ι κ α) (producers : ι → ImplicitProducer) (c : κ) (r : Option α) :
    Dequeue ι α → Prop
  | .idle last => last = none ∨ last = some r
  | .loadTail _ => True
  | .loadOvercommit i tail => Seen t producers i tail r
  | .loadOptimistic i tail o => o = 0#64 ∧ Seen t producers i tail r
  | .fetchOptimistic i o => o = 0#64 ∧ t.Front i r
  | .reloadTail i o x => o = 0#64 ∧ x = (producers i).headIndex ∧ t.Front i r
  | .fetchHead i => t.Front i r
  | .fetchOvercommit _ | .undefined => False
  | _ => r ≠ none ∧ t.hand c = r

end Expects

variable [DecidableEq ι]

/-- The one consumer is to return `r`, and holds what tickets there are. -/
structure Serial (t : LaneQueue ι Unit α) (q : ConcurrentQueue ι Unit α) (r : Option α) : Prop where
  overcommit : ∀ i, (q.producers i).dequeueOvercommit = 0#64
  optimistic : ∀ i, (q.producers i).dequeueOptimisticCount =
    (q.producers i).headIndex + if (q.deq ()).ticket? = some i then 1#64 else 0#64
  expects : Expects t q.producers () r (q.deq ())

variable {t : LaneQueue ι Unit α} {q q' : ConcurrentQueue ι Unit α} {r : Option α} {i : ι}
  {v v' : View ι Unit α} {act : Action ι Unit α}

/-- One consumer is never far ahead. -/
theorem Serial.within (h : Serial t q r) : q.Within := by
  intro i
  rw [ImplicitProducer.Within, h.optimistic i]
  have hsub : ∀ x y : Size, x + y - x = y :=
    fun x y => by rw [BitVec.add_comm, BitVec.add_sub_cancel]
  rw [hsub]
  split
  · decide
  · decide

theorem Serial.initial (blockCount : Nat) (blockIndex : ι → Bool)
    (value : ι → Size → Option BlockId) :
    Serial (.empty : LaneQueue ι Unit α) (.initial blockCount blockIndex value) none where
  overcommit _ := rfl
  optimistic _ := rfl
  expects := .inl rfl

/-! ## The steps of producers -/

omit [DecidableEq ι] in
theorem Seen.mono {κ : Type} {t t' : LaneQueue ι κ α} {producers producers' : ι → ImplicitProducer}
    {tail : Size} (h : Seen t producers i tail r) (hsame : (producers i).SameCounts (producers' i))
    (hfront : t.Front i r → t'.Front i r) : Seen t' producers' i tail r := by
  rw [Seen, hsame.headIndex]
  unfold Seen at h
  split
  · next hless =>
      rw [if_pos hless] at h
      exact hfront h
  · next hless =>
      rw [if_neg hless] at h
      exact h

omit [DecidableEq ι] in
/-- What others do keeps what a consumer is to return. -/
theorem Expects.mono {κ : Type} {c : κ} {t t' : LaneQueue ι κ α}
    {producers producers' : ι → ImplicitProducer} {d : Dequeue ι α}
    (h : Expects t producers c r d) (hsame : ∀ j, (producers j).SameCounts (producers' j))
    (hhand : t'.hand c = t.hand c) (hfront : ∀ j, t.Front j r → t'.Front j r) :
    Expects t' producers' c r d := by
  cases d with
  | idle last => exact h
  | loadTail i => trivial
  | loadOvercommit i x => exact Seen.mono h (hsame i) (hfront i)
  | loadOptimistic i x o => exact ⟨h.1, h.2.mono (hsame i) (hfront i)⟩
  | fetchOptimistic i o => exact ⟨h.1, hfront i h.2⟩
  | reloadTail i o x => exact ⟨h.1, h.2.1.trans (hsame i).headIndex.symm, hfront i h.2.2⟩
  | fetchHead i => exact hfront i h
  | fetchOvercommit i => exact h
  | undefined => exact h
  | _ => exact ⟨h.1, hhand.trans h.2⟩

theorem Serial.produce {t' : LaneQueue ι Unit α} (h : Serial t q r) (hdeq : q'.deq = q.deq)
    (hsame : ∀ j, (q.producers j).SameCounts (q'.producers j)) (hhand : t'.hand = t.hand)
    (hfront : ∀ j, t.Front j r → t'.Front j r) : Serial t' q' r where
  overcommit j := (hsame j).overcommit.trans (h.overcommit j)
  optimistic j := by
    rw [hdeq, (hsame j).headIndex, (hsame j).optimistic]
    exact h.optimistic j
  expects := by
    rw [hdeq]
    exact h.expects.mono hsame (congrFun hhand ()) hfront

theorem Serial.enqueueStep {t' : LaneQueue ι Unit α} (h : Serial t q r)
    (hs : q.enqueueStep i = some q')
    (hpath : EventPath LaneQueue.Next t (event q (.enqueue i) q').toList t') :
    Serial t' q' r := by
  obtain ⟨hdeq, hsame⟩ := q.enqueueStep_keeps hs
  cases he : q.enq i with
  | storeTailIndex a =>
      simp only [event, he] at hpath
      cases hpath.of_singleton with
      | push => exact h.produce hdeq hsame rfl fun _ hf => hf.push ..
  | _ =>
      simp only [event, he] at hpath
      rw [hpath.eq_of_nil]
      exact h.produce hdeq hsame rfl fun _ hf => hf

/-! ## The steps of the consumer -/

omit [DecidableEq ι] in
/-- The comparison of the two indices says whether there is an element. -/
theorem Good.less_iff {κ : Type} [DecidableEq κ] {v : View ι κ α} {q : ConcurrentQueue ι κ α}
    (h : Good v q) : circularLessThan (q.producers i).headIndex (q.producers i).tailIndex = true ↔
      v.laneQueue.lanes i ≠ [] := by
  have hi := h.producer i
  have hle := hi.counters.sound.head_le_tail
  have htail := hi.storage.tail_le
  have hhead := hi.storage.le_head
  rw [hi.counters.headIndex, hi.counters.tailIndex, circularLessThan,
    Circular.less_ofNat_iff (by decide) (by omega) (by omega), ← hi.counters.length]
  simp only [View.laneQueue, SubQueue.lane, ne_eq, List.drop_eq_nil_iff, Nat.not_le]

/-- The consumer goes on, holding the ticket it held. -/
theorem Serial.goto {t' : LaneQueue ι Unit α} {q₁ : ConcurrentQueue ι Unit α} {d : Dequeue ι α}
    {r' : Option α} (h : Serial t q r) (hsame : ∀ j, (q.producers j).SameCounts (q₁.producers j))
    (hticket : d.ticket? = (q.deq ()).ticket?) (hd : Expects t' q₁.producers () r' d) :
    Serial t' (q₁.setDeq () d) r' where
  overcommit j := (hsame j).overcommit.trans (h.overcommit j)
  optimistic j := by
    simp only [ConcurrentQueue.setDeq, Function.update_self, hticket]
    rw [(hsame j).headIndex, (hsame j).optimistic]
    exact h.optimistic j
  expects := by
    simp only [ConcurrentQueue.setDeq, Function.update_self]
    exact hd

theorem Serial.loadTail (h : Serial v.laneQueue q r) (hg : Good v q) (hd : q.deq () = .loadTail i) :
    Serial v.laneQueue (q.setDeq () (.loadOvercommit i (q.producers i).tailIndex))
      (v.laneQueue.lanes i).head? := by
  refine h.goto (fun _ => ⟨rfl, rfl, rfl⟩) (by rw [hd]; rfl) ?_
  rw [Expects, Seen]
  split
  · next hless =>
      refine ⟨?_, rfl⟩
      rw [ne_eq, List.head?_eq_none_iff]
      exact hg.less_iff.mp hless
  · next hless =>
      rw [List.head?_eq_none_iff]
      exact not_not.mp (mt hg.less_iff.mpr hless)

/-- The first comparison is that of the indices, as the consumer found them. -/
theorem Serial.loadOptimistic {x o : Size} (h : Serial t q r)
    (hd : q.deq () = .loadOptimistic i x o)
    (hless : circularLessThan ((q.producers i).dequeueOptimisticCount - o) x = true) :
    Serial t (q.setDeq () (.fetchOptimistic i o)) r := by
  have hexp := h.expects
  have hopt := h.optimistic i
  rw [hd] at hexp hopt
  obtain ⟨rfl, hseen⟩ := hexp
  rw [hopt, if_neg (by nofun), BitVec.add_zero, BitVec.sub_zero] at hless
  rw [Seen, if_pos hless] at hseen
  exact h.goto (fun _ => ⟨rfl, rfl, rfl⟩) (by rw [hd]; rfl) ⟨rfl, hseen⟩

theorem Serial.giveUp {t' : LaneQueue ι Unit α} {x o : Size} (h : Serial t q r)
    (hd : q.deq () = .loadOptimistic i x o)
    (hless : ¬ circularLessThan ((q.producers i).dequeueOptimisticCount - o) x = true) :
    Serial t' (q.setDeq () (.idle (some none))) r := by
  have hexp := h.expects
  have hopt := h.optimistic i
  rw [hd] at hexp hopt
  obtain ⟨rfl, hseen⟩ := hexp
  rw [hopt, if_neg (by nofun), BitVec.add_zero, BitVec.sub_zero] at hless
  rw [Seen, if_neg hless] at hseen
  exact h.goto (fun _ => ⟨rfl, rfl, rfl⟩) (by rw [hd]; rfl) (.inr (congrArg some hseen.symm))

theorem Serial.fetchOptimistic {o : Size} (h : Serial t q r)
    (hd : q.deq () = .fetchOptimistic i o) :
    Serial t ((q.setProducer i { q.producers i with
      dequeueOptimisticCount := (q.producers i).dequeueOptimisticCount + 1#64 }).setDeq ()
      (.reloadTail i o (q.producers i).dequeueOptimisticCount)) r := by
  have hexp := h.expects
  have hopt := h.optimistic
  rw [hd] at hexp hopt
  obtain ⟨rfl, hfront⟩ := hexp
  have hcount := hopt i
  rw [if_neg (by simp [Dequeue.ticket?]), BitVec.add_zero] at hcount
  refine ⟨fun j => ?_, fun j => ?_, ?_⟩
  · rcases eq_or_ne j i with rfl | hne
    · simp only [ConcurrentQueue.setDeq, ConcurrentQueue.setProducer, Function.update_self]
      exact h.overcommit j
    · simp only [ConcurrentQueue.setDeq, ConcurrentQueue.setProducer, Function.update_of_ne hne]
      exact h.overcommit j
  · rcases eq_or_ne j i with rfl | hne
    · simp only [ConcurrentQueue.setDeq, ConcurrentQueue.setProducer, Function.update_self,
        Dequeue.ticket?, if_true]
      rw [hcount]
    · have hother := hopt j
      rw [if_neg (by simp [Dequeue.ticket?])] at hother
      simp only [ConcurrentQueue.setDeq, ConcurrentQueue.setProducer, Function.update_self,
        Function.update_of_ne hne, Dequeue.ticket?, Option.some.injEq, if_neg hne.symm]
      exact hother
  · simp only [ConcurrentQueue.setDeq, ConcurrentQueue.setProducer, Function.update_self, Expects]
    exact ⟨trivial, hcount, hfront⟩

/-- The second comparison says the same again: the consumer is not refused. -/
theorem Serial.reloadTail {o x : Size} (h : Serial v.laneQueue q r) (hg : Good v q)
    (hd : q.deq () = .reloadTail i o x) :
    circularLessThan (x - o) (q.producers i).tailIndex = true ∧
      Serial v.laneQueue (q.setDeq () (.fetchHead i)) r := by
  have hexp := h.expects
  rw [hd] at hexp
  obtain ⟨rfl, rfl, hfront⟩ := hexp
  refine ⟨?_, h.goto (fun _ => ⟨rfl, rfl, rfl⟩) (by rw [hd]; rfl) hfront⟩
  rw [BitVec.sub_zero, hg.less_iff]
  intro hnil
  obtain ⟨hne, hhead⟩ := hfront
  rw [hnil] at hhead
  exact hne hhead.symm

theorem Serial.fetchHead {a : α} {t' : LaneQueue ι Unit α} (h : Serial t q r)
    (hd : q.deq () = .fetchHead i) (hnext : LaneQueue.Next t (.claim () i a) t') :
    Serial t' ((q.setProducer i { q.producers i with
      headIndex := (q.producers i).headIndex + 1#64 }).setDeq ()
      (.loadIndexTail i (q.producers i).headIndex)) r := by
  have hexp := h.expects
  have hopt := h.optimistic
  rw [hd] at hexp hopt
  obtain ⟨hne, hhead⟩ := hexp
  refine ⟨fun j => ?_, fun j => ?_, ?_⟩
  · rcases eq_or_ne j i with rfl | hne
    · simp only [ConcurrentQueue.setDeq, ConcurrentQueue.setProducer, Function.update_self]
      exact h.overcommit j
    · simp only [ConcurrentQueue.setDeq, ConcurrentQueue.setProducer, Function.update_of_ne hne]
      exact h.overcommit j
  · have hcount := hopt j
    rcases eq_or_ne j i with rfl | hji
    · simp only [Dequeue.ticket?, if_true] at hcount
      simp only [ConcurrentQueue.setDeq, ConcurrentQueue.setProducer, Function.update_self]
      rw [hcount, if_neg (by simp [Dequeue.ticket?]), BitVec.add_zero]
    · simp only [Dequeue.ticket?, Option.some.injEq, if_neg hji.symm] at hcount
      simp only [ConcurrentQueue.setDeq, ConcurrentQueue.setProducer, Function.update_self,
        Function.update_of_ne hji]
      rw [hcount, if_neg (by simp [Dequeue.ticket?])]
  · cases hnext with
    | claim hhand hpop =>
        obtain ⟨rest, hlane, rfl⟩ := Lanes.pop?_eq_some.mp hpop
        rw [hlane] at hhead
        simp only [ConcurrentQueue.setDeq, Function.update_self, Expects]
        exact ⟨hne, hhead⟩

/-- What the consumer is to return after its next step: a call settles it with its first
load. -/
def settle (t : LaneQueue ι Unit α) (r : Option α) : Dequeue ι α → Option α
  | .loadTail i => (t.lanes i).head?
  | _ => r

theorem Serial.dequeueStep (h : Serial v.laneQueue q r) (hg : Good v q)
    (hs : q.dequeueStep () = some q') :
    ∃ v', (Good v' q' ∧ (Held v q → Held v' q')) ∧
      EventPath LaneQueue.Next v.laneQueue (event q (.dequeue ()) q').toList v'.laneQueue ∧
      Serial v'.laneQueue q' (settle v.laneQueue r (q.deq ())) := by
  obtain ⟨v', hpath, hg'⟩ := hg.dequeueStep h.within hs
  refine ⟨v', hg', hpath, ?_⟩
  have hexp := h.expects
  have hhand := hg.consumer ()
  cases hd : q.deq () with
  | idle last => simp [ConcurrentQueue.dequeueStep, hd] at hs
  | undefined => rw [hd] at hexp; exact hexp.elim
  | fetchOvercommit i => rw [hd] at hexp; exact hexp.elim
  | loadTail i =>
      simp only [ConcurrentQueue.dequeueStep, hd, Option.some.injEq] at hs
      subst hs
      rw [event_dequeue hd (by simp)] at hpath
      rw [hpath.eq_of_nil]
      exact h.loadTail hg hd
  | loadOvercommit i x =>
      rw [hd] at hexp
      simp only [ConcurrentQueue.dequeueStep, hd, Option.some.injEq] at hs
      subst hs
      rw [event_dequeue hd (by simp)] at hpath
      rw [hpath.eq_of_nil]
      exact h.goto (fun _ => ⟨rfl, rfl, rfl⟩) (by rw [hd]; rfl) ⟨h.overcommit i, hexp⟩
  | loadOptimistic i x o =>
      by_cases hless : circularLessThan ((q.producers i).dequeueOptimisticCount - o) x = true
      · simp only [ConcurrentQueue.dequeueStep, hd, hless, if_true, Option.some.injEq] at hs
        subst hs
        rw [event_dequeue hd (by simp)] at hpath
        rw [hpath.eq_of_nil]
        exact h.loadOptimistic hd hless
      · simp only [ConcurrentQueue.dequeueStep, hd, if_neg hless, Option.some.injEq] at hs
        subst hs
        exact h.giveUp hd hless
  | fetchOptimistic i o =>
      simp only [ConcurrentQueue.dequeueStep, hd, Option.some.injEq] at hs
      subst hs
      rw [event_dequeue hd (by simp)] at hpath
      rw [hpath.eq_of_nil]
      exact h.fetchOptimistic hd
  | reloadTail i o x =>
      obtain ⟨hless, hnext⟩ := h.reloadTail hg hd
      simp only [ConcurrentQueue.dequeueStep, hd, hless, if_true, Option.some.injEq] at hs
      subst hs
      rw [event_dequeue hd (by simp)] at hpath
      rw [hpath.eq_of_nil]
      exact hnext
  | fetchHead i =>
      simp only [ConcurrentQueue.dequeueStep, hd, Option.some.injEq] at hs
      subst hs
      obtain ⟨a, hitem, -, -⟩ := hg.fetchHead hd
      obtain ⟨hlt, -⟩ := List.getElem?_eq_some_iff.mp hitem
      have hfront := (hg.front_eq ((hg.producer i).counters.length ▸ hlt)).trans hitem
      simp only [event, hd, hfront, Option.map_some] at hpath
      exact h.fetchHead hd hpath.of_singleton
  | loadIndexTail i x =>
      rw [hd] at hexp
      simp only [ConcurrentQueue.dequeueStep, hd, Option.some.injEq] at hs
      subst hs
      rw [event_dequeue hd (by simp)] at hpath
      rw [hpath.eq_of_nil]
      exact h.goto (fun _ => ⟨rfl, rfl, rfl⟩) (by rw [hd]; rfl) hexp
  | loadKey i x t =>
      rw [hd] at hexp
      simp only [ConcurrentQueue.dequeueStep, hd, Option.some.injEq] at hs
      subst hs
      rw [event_dequeue hd (by simp)] at hpath
      rw [hpath.eq_of_nil]
      exact h.goto (fun _ => ⟨rfl, rfl, rfl⟩) (by rw [hd]; rfl) hexp
  | loadValue i x s =>
      rw [hd] at hexp
      obtain ⟨b, hb, -⟩ := hg.loadValue hd
      simp only [ConcurrentQueue.dequeueStep, hd, hb, Option.some.injEq] at hs
      subst hs
      rw [event_dequeue hd (by simp)] at hpath
      rw [hpath.eq_of_nil]
      exact h.goto (fun _ => ⟨rfl, rfl, rfl⟩) (by rw [hd]; rfl) hexp
  | take i x s b =>
      rw [hd] at hexp
      obtain ⟨n, a, -, ha, -⟩ := hg.take hd
      simp only [ConcurrentQueue.dequeueStep, hd, ha, Option.some.injEq] at hs
      subst hs
      rw [event_dequeue hd (by simp)] at hpath
      rw [hpath.eq_of_nil]
      exact h.goto (fun _ => ⟨rfl, rfl, rfl⟩) (by rw [hd]; rfl) hexp
  | setEmpty i s b a =>
      rw [hd] at hexp hhand
      by_cases hlast : (q.blocks b).elementsCompletelyDequeued = blockSize.toNat - 1
      · simp only [ConcurrentQueue.dequeueStep, hd, if_pos hlast, Option.some.injEq] at hs
        subst hs
        rw [event_dequeue hd (by simp)] at hpath
        rw [hpath.eq_of_nil]
        exact h.goto (fun _ => ⟨rfl, rfl, rfl⟩) (by rw [hd]; rfl) hexp
      · simp only [ConcurrentQueue.dequeueStep, hd, if_neg hlast, Option.some.injEq] at hs
        subst hs
        exact h.goto (fun _ => ⟨rfl, rfl, rfl⟩) (by rw [hd]; rfl)
          (.inr (congrArg some (hhand.1.symm.trans hexp.2)))
  | clearValue i s b a =>
      rw [hd] at hexp
      simp only [ConcurrentQueue.dequeueStep, hd, Option.some.injEq] at hs
      subst hs
      rw [event_dequeue hd (by simp)] at hpath
      rw [hpath.eq_of_nil]
      exact h.goto (q.sameCounts_setProducer ⟨rfl, rfl, rfl⟩) (by rw [hd]; rfl) hexp
  | addFree b a =>
      rw [hd] at hexp hhand
      simp only [ConcurrentQueue.dequeueStep, hd, Option.some.injEq] at hs
      subst hs
      exact h.goto (fun _ => ⟨rfl, rfl, rfl⟩) (by rw [hd]; rfl)
        (.inr (congrArg some (hhand.1.symm.trans hexp.2)))

theorem Serial.step (h : Serial v.laneQueue q r) (hg : Good v q) (hs : q.step act = some q') :
    ∃ v', (Good v' q' ∧ (Held v q → Held v' q')) ∧
      EventPath LaneQueue.Next v.laneQueue (event q act q').toList v'.laneQueue ∧
      (Serial v'.laneQueue q' r ∨
        act = .dequeue () ∧ Serial v'.laneQueue q' (settle v.laneQueue r (q.deq ()))) := by
  cases act with
  | dequeue c =>
      obtain ⟨v', hg', hpath, hser⟩ := h.dequeueStep hg hs
      exact ⟨v', hg', hpath, .inr ⟨rfl, hser⟩⟩
  | enqueue i =>
      obtain ⟨v', hpath, hg'⟩ := hg.step h.within hs
      exact ⟨v', hg', hpath, .inl (h.enqueueStep hs hpath)⟩
  | tryGet i got =>
      obtain ⟨v', hpath, hg'⟩ := hg.step h.within hs
      obtain ⟨hdeq, hsame⟩ := q.tryGetStep_keeps hs
      refine ⟨v', hg', hpath, .inl ?_⟩
      rw [hpath.eq_of_nil]
      exact h.produce hdeq hsame rfl fun _ hf => hf
  | tryEnqueue i a =>
      obtain ⟨v', hpath, hg'⟩ := hg.step h.within hs
      refine ⟨v', hg', hpath, .inl ?_⟩
      rw [hpath.eq_of_nil]
      cases he : q.enq i with
      | idle last =>
          simp only [ConcurrentQueue.step, he, Option.some.injEq] at hs
          subst hs
          exact h.produce rfl (fun _ => ⟨rfl, rfl, rfl⟩) rfl fun _ hf => hf
      | _ => simp [ConcurrentQueue.step, he] at hs
  | tryDequeue c i =>
      obtain ⟨v', hpath, hg'⟩ := hg.step h.within hs
      refine ⟨v', hg', hpath, .inl ?_⟩
      rw [hpath.eq_of_nil]
      cases hd : q.deq c with
      | idle last =>
          simp only [ConcurrentQueue.step, hd, Option.some.injEq] at hs
          subst hs
          exact h.goto (fun _ => ⟨rfl, rfl, rfl⟩) (by rw [hd]; rfl) trivial
      | _ => simp [ConcurrentQueue.step, hd] at hs

/-! ## Whole runs -/

theorem Serial.run {as : List (Action ι Unit α)} (h : Serial v.laneQueue q r) (hg : Good v q)
    (hheld : Held v q) (hrun : ConcurrentQueue.machine.run q as = some q') :
    ∃ v' r', (Good v' q' ∧ Held v' q') ∧ EventPath LaneQueue.Next v.laneQueue
      (ConcurrentQueue.machine.trace event q as) v'.laneQueue ∧ Serial v'.laneQueue q' r' := by
  obtain ⟨t, hpath, v', r', rfl, hg', h'⟩ := Machine.along_true.refines
    (R := fun q t => ∃ (v : View ι Unit α) (r : Option α), v.laneQueue = t ∧
      (Good v q ∧ Held v q) ∧ Serial v.laneQueue q r)
    (fun q act q' t ⟨v, r, hv, ⟨hg, hheld⟩, h⟩ hs _ => by
      subst hv
      obtain ⟨v', ⟨hg', hheld'⟩, hpath, hser⟩ := h.step hg hs
      rcases hser with hser | ⟨-, hser⟩
      · exact ⟨_, hpath, v', _, rfl, ⟨hg', hheld' hheld⟩, hser⟩
      · exact ⟨_, hpath, v', _, rfl, ⟨hg', hheld' hheld⟩, hser⟩) ⟨v, r, rfl, ⟨hg, hheld⟩, h⟩ hrun
  exact ⟨v', r', hg', hpath, h'⟩

/-- Where a run with one consumer gets to. -/
theorem Serial.reached {blockCount : Nat} {blockIndex : ι → Bool}
    {value : ι → Size → Option BlockId} {as : List (Action ι Unit α)}
    {q : ConcurrentQueue ι Unit α}
    (hrun : ConcurrentQueue.machine.run (.initial blockCount blockIndex value) as = some q) :
    ∃ (v : View ι Unit α) (r : Option α), (Good v q ∧ Held v q) ∧ EventPath LaneQueue.Next .empty
      (ConcurrentQueue.machine.trace event (.initial blockCount blockIndex value) as)
      v.laneQueue ∧ Serial v.laneQueue q r :=
  (Serial.initial blockCount blockIndex value).run (v := .initial)
    (Good.initial blockCount blockIndex value) .start hrun

/-- With one consumer no count is ever far ahead. -/
theorem serial_within (blockCount : Nat) (blockIndex : ι → Bool)
    (value : ι → Size → Option BlockId) (as : List (Action ι Unit α)) :
    ConcurrentQueue.machine.Along (fun q _ _ => q.Within)
      (.initial blockCount blockIndex value) as := by
  refine .of_invariant (I := fun q => ∃ (v : View ι Unit α) (r : Option α), Good v q ∧
    Serial v.laneQueue q r) ?_ ⟨.initial, none, .initial .., .initial ..⟩
  rintro q act q' ⟨v, r, hg, h⟩ hs
  obtain ⟨v', ⟨hg', -⟩, -, hser⟩ := h.step hg hs
  refine ⟨h.within, v', ?_⟩
  rcases hser with hser | ⟨-, hser⟩
  · exact ⟨_, hg', hser⟩
  · exact ⟨_, hg', hser⟩

/-- With one consumer the queue does what a lane queue does in every run whatsoever, and
the consumer never has to give a ticket back. -/
theorem queue_serial (blockCount : Nat) (blockIndex : ι → Bool)
    (value : ι → Size → Option BlockId) {as : List (Action ι Unit α)}
    {q : ConcurrentQueue ι Unit α}
    (hrun : ConcurrentQueue.machine.run (.initial blockCount blockIndex value) as = some q) :
    ∃ t : LaneQueue ι Unit α, EventPath LaneQueue.Next .empty
      (ConcurrentQueue.machine.trace event (.initial blockCount blockIndex value) as) t ∧
      Shows t q ∧ ∀ i, q.deq () ≠ .fetchOvercommit i := by
  obtain ⟨v, r, ⟨hg, -⟩, hpath, hser⟩ := Serial.reached hrun
  refine ⟨v.laneQueue, hpath, hg.shows, fun i hd => ?_⟩
  have hexp := hser.expects
  rw [hd] at hexp
  exact hexp

/-- An element put in while a call looks for one, and found by the next. -/
def errand : List (Action Unit Unit Nat) :=
  [.tryDequeue () (), .dequeue (), .tryEnqueue () 7] ++ List.replicate 10 (.enqueue ()) ++
    [.dequeue (), .dequeue (), .tryDequeue () ()] ++ List.replicate 11 (.dequeue ())

theorem queue_serial_errand : ∃ t : LaneQueue Unit Unit Nat, EventPath LaneQueue.Next .empty
    [.push () 7, .answer () none, .claim () () 7, .answer () (some 7)] t := by
  have hsome : (ConcurrentQueue.machine.run (.initial 2 (fun _ => true) fun _ _ => none)
      errand).isSome = true := by decide +kernel
  obtain ⟨t, hpath, -⟩ := queue_serial 2 (fun _ => true) (fun _ _ => none)
    (Option.some_get hsome).symm
  have htrace : ConcurrentQueue.machine.trace event (.initial 2 (fun _ => true) fun _ _ => none)
      errand = [.push () 7, .answer () none, .claim () () 7, .answer () (some 7)] := by
    decide +kernel
  exact ⟨t, htrace ▸ hpath⟩

/-- What the code can tell of the front of lane `i`. -/
def ConcurrentQueue.peek (q : ConcurrentQueue ι Unit α) (i : ι) : Option α :=
  if (q.producers i).headIndex = (q.producers i).tailIndex then none else q.front i

/-- Only a call leads to a first load. -/
theorem ConcurrentQueue.ne_loadTail {κ : Type} [DecidableEq κ] {q q' : ConcurrentQueue ι κ α}
    {c : κ} (hs : q.dequeueStep c = some q') : q'.deq c ≠ .loadTail i := by
  intro hd
  have hlt := (dequeueStep_left hs).1
  have hle := (q.deq c).left_le
  rw [hd, Dequeue.left] at hlt
  omega

/-- Until the next call, what the consumer is to return stays what it is. -/
theorem Serial.stays {as : List (Action ι Unit α)} (h : Serial v.laneQueue q r) (hg : Good v q)
    (hd : ∀ i, q.deq () ≠ .loadTail i) (has : ∀ j, .tryDequeue () j ∉ as)
    (hrun : ConcurrentQueue.machine.run q as = some q') :
    ∃ v', Good v' q' ∧ Serial v'.laneQueue q' r := by
  have hall : ConcurrentQueue.machine.Along (fun _ act _ => ∀ j, act ≠ .tryDequeue () j) q as :=
    .of_forall_mem fun act hact j heq => has j (heq ▸ hact)
  obtain ⟨v', hg', h', -⟩ := hall.invariant
    (I := fun q => ∃ v : View ι Unit α, Good v q ∧ Serial v.laneQueue q r ∧
      ∀ i, q.deq () ≠ .loadTail i)
    (fun q act q' ⟨v, hg, h, hd⟩ hs hact => by
      obtain ⟨v', ⟨hg', -⟩, -, hser⟩ := h.step hg hs
      by_cases heq : act = .dequeue ()
      · subst heq
        have hkeep : settle v.laneQueue r (q.deq ()) = r := by
          cases hdeq : q.deq () with
          | loadTail i => exact absurd hdeq (hd i)
          | _ => rfl
        rw [hkeep] at hser
        exact ⟨v', hg', hser.elim id And.right, fun i => ConcurrentQueue.ne_loadTail hs⟩
      · refine ⟨v', hg', hser.elim id fun hc => absurd hc.1 heq, fun i => ?_⟩
        rcases ConcurrentQueue.step_deq hs hact with ⟨hown, -⟩ | ⟨-, hsame⟩
        · cases act with
          | dequeue c => exact absurd rfl heq
          | _ => cases hown
        · rw [hsame]
          exact hd i) ⟨v, hg, h, hd⟩ hrun
  exact ⟨v', hg', h'⟩

/-- A call of the one consumer returns what is in front of the lane at its first load, and
nothing if the lane is empty then, whatever the producers do meanwhile. -/
theorem dequeue_answers_front (blockCount : Nat) (blockIndex : ι → Bool)
    (value : ι → Size → Option BlockId) {as bs : List (Action ι Unit α)}
    {q q' : ConcurrentQueue ι Unit α} {i : ι} {r : Option α}
    (hrun : ConcurrentQueue.machine.run (.initial blockCount blockIndex value) as = some q)
    (hd : q.deq () = .loadTail i)
    (hrun' : ConcurrentQueue.machine.run q (.dequeue () :: bs) = some q')
    (hbs : ∀ j, .tryDequeue () j ∉ bs) (hr : q'.deq () = .idle (some r)) : r = q.peek i := by
  obtain ⟨v, r₀, ⟨hg, -⟩, -, hser⟩ := Serial.reached hrun
  obtain ⟨q₁, hs, hrest⟩ := (Machine.run_cons_eq_some _).mp hrun'
  obtain ⟨v₁, ⟨hg₁, -⟩, -, hser₁⟩ := hser.dequeueStep hg hs
  rw [hd, settle, hg.shows.front i] at hser₁
  obtain ⟨v', -, hser'⟩ := hser₁.stays hg₁ (fun j => ConcurrentQueue.ne_loadTail hs) hbs hrest
  have hexp := hser'.expects
  rw [hr] at hexp
  rcases hexp with hnone | hsome
  · cases hnone
  · exact Option.some.inj hsome

/-- The first call of `errand` finds nothing, though an element is put in before it returns. -/
theorem dequeue_answers_front_errand : ∃ q : ConcurrentQueue Unit Unit Nat,
    ConcurrentQueue.machine.run (.initial 2 (fun _ => true) fun _ _ => none) (errand.take 1) =
      some q ∧ q.peek () = none := by
  have hsome : ((ConcurrentQueue.machine.run (.initial 2 (fun _ => true) fun _ _ => none)
      (errand.take 1)).bind fun q => (ConcurrentQueue.machine.run q (.dequeue () ::
        (errand.take 15).drop 2)).map fun q' => (q.deq (), q'.deq ())) =
      some (.loadTail (), .idle (some none)) := by decide +kernel
  obtain ⟨q, hrun, hq⟩ := Option.bind_eq_some_iff.mp hsome
  obtain ⟨q', hrun', hpair⟩ := Option.map_eq_some_iff.mp hq
  exact ⟨q, hrun, (dequeue_answers_front 2 (fun _ => true) (fun _ _ => none) hrun
    (Prod.mk.inj hpair).1 hrun' (by simp [errand]) (Prod.mk.inj hpair).2).symm⟩

end Rtlog.Queue
