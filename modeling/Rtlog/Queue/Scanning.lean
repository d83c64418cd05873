/-
# `Rtlog.Queue.Scanning` — what `try_dequeue` finds

With one consumer the sizes that the first loop of `try_dequeue` adds up can be relied on:
a producer that was not empty when it was looked at is not empty when `dequeue` is called
on it, as nobody else takes anything.  So the second loop is never reached, and

    `false`    only if every producer in the list was empty when the call loaded the list
    `true`     with an element that `dequeue` has claimed

`Finds` is what a consumer relies on at each place, and `Awaits` what makes sure that the
call does not come back with nothing.
-/
import Rtlog.Queue.TryDequeue

namespace Rtlog.Queue

variable {ι κ α : Type}

/-! ## The steps of producers -/

/-- The producer whose step it is. -/
def Action.producer? : Action ι κ α → Option ι
  | .tryEnqueue i _ | .enqueue i | .tryGet i _ => some i
  | .tryDequeue .. | .dequeue _ => none

section Produces

variable [DecidableEq ι] [DecidableEq κ] {q q' : ConcurrentQueue ι κ α} {act : Action ι κ α} {i : ι}

theorem ConcurrentQueue.produce_keeps (hs : q.step act = some q')
    (hact : act.producer? = some i) :
    q'.deq = q.deq ∧ (∀ j, (q.producers j).SameCounts (q'.producers j)) ∧
      ∀ j, j ≠ i → q'.enq j = q.enq j := by
  cases act with
  | enqueue j =>
      cases hact
      obtain ⟨hdeq, hsame⟩ := q.enqueueStep_keeps hs
      exact ⟨hdeq, hsame, (q.enqueueStep_left hs).2⟩
  | tryGet j got =>
      cases hact
      obtain ⟨hdeq, hsame⟩ := q.tryGetStep_keeps hs
      exact ⟨hdeq, hsame, (q.tryGetStep_left hs).2⟩
  | tryEnqueue j a =>
      cases hact
      cases he : q.enq i with
      | idle last =>
          simp only [ConcurrentQueue.step, he, Option.some.injEq] at hs
          subst hs
          exact ⟨rfl, fun _ => ⟨rfl, rfl, rfl⟩, fun k hne => Function.update_of_ne hne ..⟩
      | _ => simp [ConcurrentQueue.step, he] at hs
  | tryDequeue | dequeue => cases hact

omit [DecidableEq ι] [DecidableEq κ] in
/-- A producer makes its lane longer, and does nothing else that is seen. -/
theorem produce_event (hact : act.producer? = some i) :
    event q act q' = none ∨ ∃ a, event q act q' = some (.push i a) := by
  cases act with
  | enqueue j =>
      cases hact
      cases he : q.enq i with
      | storeTailIndex a => exact .inr ⟨a, by simp only [event, he]⟩
      | _ => exact .inl (by simp only [event, he])
  | tryGet | tryEnqueue => exact .inl rfl
  | tryDequeue | dequeue => cases hact

theorem lanes_of_produce {t t' : LaneQueue ι κ α} (hact : act.producer? = some i)
    (hpath : EventPath LaneQueue.Next t (event q act q').toList t') :
    (∀ j, t.lanes j <+: t'.lanes j) ∧ ∀ j, j ≠ i → t'.lanes j = t.lanes j := by
  have hevent : event q act q' = none ∨ ∃ a, event q act q' = some (.push i a) :=
    produce_event hact
  rcases hevent with hnone | ⟨a, hpush⟩
  · rw [hnone] at hpath
    rw [hpath.eq_of_nil]
    exact ⟨fun _ => List.prefix_rfl, fun _ _ => rfl⟩
  · rw [hpush] at hpath
    cases hpath.of_singleton with
    | push => exact ⟨fun j => t.lanes.prefix_push i j a, fun j hne => Lanes.push_of_ne hne⟩

/-- A consumer puts nothing in. -/
theorem lanes_of_dequeue {c : κ} {t t' : LaneQueue ι κ α}
    (hpath : EventPath LaneQueue.Next t (event q (.dequeue c) q').toList t') (h : t.lanes i = []) :
    t'.lanes i = [] := by
  cases hev : event q (.dequeue c) q' with
  | none =>
      rw [hev] at hpath
      rw [hpath.eq_of_nil]
      exact h
  | some e =>
      rw [hev] at hpath
      cases hpath.of_singleton with
      | push =>
          simp only [event] at hev
          split at hev <;> simp at hev
      | @claim d j a lanes _ hpop =>
          obtain ⟨rest, hlane, rfl⟩ := Lanes.pop?_eq_some.mp hpop
          have hne : i ≠ j := by
            rintro rfl
            rw [h] at hlane
            cases hlane
          exact (Function.update_of_ne hne ..).trans h
      | answer => exact h

end Produces

variable [DecidableEq ι] {t t' : LaneQueue ι Unit α} {v : View ι Unit α} {r : Option α} {i : ι}

/-- The consumer is not concerned by the step of a producer. -/
theorem Serial.produced {q q' : ConcurrentQueue ι Unit α} {act : Action ι Unit α}
    (h : Serial v.laneQueue q r) (hg : Good v q) (hs : q.step act = some q')
    (hact : act.producer? = some i) :
    ∃ v', Good v' q' ∧
      EventPath LaneQueue.Next v.laneQueue (event q act q').toList v'.laneQueue ∧
      Serial v'.laneQueue q' r := by
  obtain ⟨v', ⟨hg', -⟩, hpath, hser⟩ := h.step hg hs
  refine ⟨v', hg', hpath, hser.elim id ?_⟩
  rintro ⟨rfl, -⟩
  cases hact

/-! ## The first loop -/

/-- If anything was found, the best of it is still there. -/
def ScoreOk (t : LaneQueue ι Unit α) (score : Score ι) : Prop :=
  score.nonEmptyCount = 0 ∧ score.bestSize = 0#64 ∨
    ∃ best, score.best = some best ∧ t.lanes best ≠ []

omit [DecidableEq ι] in
theorem ScoreOk.mono {score : Score ι} (h : ScoreOk t score)
    (hlanes : ∀ j, t.lanes j ≠ [] → t'.lanes j ≠ []) : ScoreOk t' score :=
  h.imp_right fun ⟨best, hbest, hne⟩ => ⟨best, hbest, hlanes best hne⟩

theorem sizeApprox_pos_iff {tail head : Size} :
    0#64 < sizeApprox tail head ↔ circularLessThan head tail = true := by
  unfold sizeApprox
  split
  · next hless =>
      refine iff_of_true ?_ hless
      rw [BitVec.lt_def]
      refine Nat.pos_of_ne_zero fun hzero => ?_
      obtain rfl : tail = head := sub_eq_zero.mp (BitVec.eq_of_toNat_eq hzero)
      rw [circularLessThan, Circular.less, BitVec.sub_self] at hless
      exact absurd hless (by decide)
  · next hless => exact iff_of_false (by decide) hless

omit [DecidableEq ι] in
theorem ScoreOk.add {score : Score ι} {tail head : Size} (h : ScoreOk t score)
    (hne : circularLessThan head tail = true → t.lanes i ≠ []) :
    ScoreOk t (score.add i (sizeApprox tail head)) := by
  unfold Score.add
  split
  · next hpos =>
      split
      · exact .inr ⟨i, rfl, hne (sizeApprox_pos_iff.mp hpos)⟩
      · next hbest =>
          rcases h with ⟨-, hzero⟩ | hbetter
          · rw [hzero] at hbest
            exact absurd hpos hbest
          · exact .inr hbetter
  · exact h

omit [DecidableEq ι] in
/-- A producer that is not empty counts. -/
theorem Score.count_add {score : Score ι} {size : Size} :
    0 < (score.add i size).nonEmptyCount ↔ 0 < score.nonEmptyCount ∨ 0#64 < size := by
  unfold Score.add
  split
  · next hpos => split <;> exact iff_of_true (Nat.succ_pos _) (.inr hpos)
  · next hpos => exact ⟨.inl, fun h => h.resolve_right hpos⟩

/-! ## Calls of `dequeue` -/

section Calls

variable {κ : Type} [DecidableEq κ] {q q' : ConcurrentQueue ι κ α} {c : κ}

/-- A call that is over has returned something. -/
theorem ConcurrentQueue.dequeueStep_returns (hs : q.dequeueStep c = some q') :
    q'.deq c ≠ .idle none := by
  have hset : ∀ (x : ConcurrentQueue ι κ α) (d : Dequeue ι α), d ≠ .idle none →
      (x.setDeq c d).deq c ≠ .idle none := by
    intro x d hne
    simp only [ConcurrentQueue.setDeq, Function.update_self]
    exact hne
  cases hd : q.deq c with
  | idle | undefined => simp [ConcurrentQueue.dequeueStep, hd] at hs
  | take i x s b =>
      cases ha : (q.blocks b).elements (pos x) with
      | none | some =>
          simp only [ConcurrentQueue.dequeueStep, hd, ha, Option.some.injEq] at hs
          exact hs ▸ hset _ _ (by simp)
  | loadOptimistic | reloadTail | loadValue | setEmpty =>
      simp only [ConcurrentQueue.dequeueStep, hd, Option.some.injEq] at hs
      refine hs ▸ hset _ _ ?_
      split <;> simp
  | _ =>
      simp only [ConcurrentQueue.dequeueStep, hd, Option.some.injEq] at hs
      exact hs ▸ hset _ _ (by simp)

end Calls

/-! ## What the consumer relies on -/

/-- The thread is not in `dequeue`. -/
def Dequeue.Out (d : Dequeue ι α) : Prop := ∃ last, d = .idle last

omit [DecidableEq ι] in
theorem Dequeue.back_of_not_out {d : Dequeue ι α} {failed inside : TryDequeue ι α}
    (h : ¬ d.Out) : d.back failed inside = inside := by
  cases d with
  | idle last => exact absurd ⟨last, rfl⟩ h
  | _ => rfl

/-- What the one consumer relies on in `try_dequeue`, when it is at `d` in `dequeue`, and is
to return `r` there. -/
def Finds (t : LaneQueue ι Unit α) (producers : ι → ImplicitProducer) (d : Dequeue ι α)
    (r : Option α) : TryDequeue ι α → Prop
  | .idle _ | .loadList => d.Out
  | .loadTail _ _ score => d.Out ∧ ScoreOk t score
  | .loadHead ptr _ score tail => d.Out ∧ ScoreOk t score ∧
      (circularLessThan (producers ptr).headIndex tail = true → t.lanes ptr ≠ [])
  | .callBest best => d.Out ∧ t.lanes best ≠ []
  | .inBest best => ¬ d.Out ∧
      (d = .loadTail best ∧ t.lanes best ≠ [] ∨ (∀ j, d ≠ .loadTail j) ∧ r ≠ none)
  | .reloadList _ | .callNext .. | .inNext .. | .undefined => False

omit [DecidableEq ι] in
theorem Finds.mono {producers producers' : ι → ImplicitProducer} {d : Dequeue ι α}
    {p : TryDequeue ι α} (h : Finds t producers d r p)
    (hhead : ∀ j, (producers' j).headIndex = (producers j).headIndex)
    (hlanes : ∀ j, t.lanes j ≠ [] → t'.lanes j ≠ []) : Finds t' producers' d r p := by
  cases p with
  | loadTail ptr ptrs score => exact ⟨h.1, h.2.mono hlanes⟩
  | loadHead ptr ptrs score tail =>
      refine ⟨h.1, h.2.1.mono hlanes, fun hless => hlanes ptr (h.2.2 ?_)⟩
      rw [hhead] at hless
      exact hless
  | callBest best => exact ⟨h.1, hlanes best h.2⟩
  | inBest best => exact ⟨h.1, h.2.imp_left fun hcall => ⟨hcall.1, hlanes best hcall.2⟩⟩
  | _ => exact h

omit [DecidableEq ι] in
theorem Finds.visit {producers : ι → ImplicitProducer} {d : Dequeue ι α} {score : Score ι}
    (hd : d.Out) (h : ScoreOk t score) (ptrs : List ι) :
    Finds t producers d r (score.visit ptrs) := by
  have hdone : Finds t producers d r score.done := by
    unfold Score.done
    split
    · next hpos =>
        rcases h with ⟨hzero, -⟩ | ⟨best, hbest, hne⟩
        · rw [hzero] at hpos
          exact absurd hpos (Nat.lt_irrefl 0)
        · simp only [hbest]
          exact ⟨hd, hne⟩
    · exact hd
  cases ptrs with
  | nil => exact hdone
  | cons ptr ptrs =>
      rw [Score.visit]
      split
      · exact ⟨hd, h⟩
      · exact hdone

omit [DecidableEq ι] in
theorem Score.visit_answer (score : Score ι) (ptrs : List ι) :
    (score.visit ptrs : TryDequeue ι α).answer? = none ∨
      (score.visit ptrs : TryDequeue ι α).answer? = some none := by
  have hdone : (score.done : TryDequeue ι α).answer? = none ∨
      (score.done : TryDequeue ι α).answer? = some none := by
    unfold Score.done
    split
    · cases score.best <;> exact .inl rfl
    · exact .inr rfl
  cases ptrs with
  | nil => exact hdone
  | cons ptr ptrs =>
      rw [Score.visit]
      split
      · exact .inl rfl
      · exact hdone

/-- The one consumer finds what is there. -/
structure ListedQueue.Ok (v : View ι Unit α) (r : Option α) (s : ListedQueue ι Unit α) : Prop where
  good : Good v s.queue
  serial : Serial v.laneQueue s.queue r
  finds : Finds v.laneQueue s.queue.producers (s.queue.deq ()) r (s.scan ())
  /-- What is not in the list has not been used. -/
  unlisted : ∀ i, i ∉ s.producerListTail → s.queue.enq i = .idle none ∧ v.laneQueue.lanes i = []

namespace ListedQueue

variable {s s' : ListedQueue ι Unit α}

theorem Ok.initial (blockCount : Nat) (blockIndex : ι → Bool)
    (value : ι → Size → Option BlockId) :
    Ok (.initial : View ι Unit α) none (.initial blockCount blockIndex value) where
  good := .initial blockCount blockIndex value
  serial := .initial blockCount blockIndex value
  finds := ⟨none, rfl⟩
  unlisted _ _ := ⟨rfl, rfl⟩

/-- A step between the calls of `dequeue`. -/
theorem Ok.goto {p : TryDequeue ι α} (h : s.Ok v r)
    (hp : Finds v.laneQueue s.queue.producers (s.queue.deq ()) r p) : Ok v r (s.goto () p) := by
  refine ⟨h.good, h.serial, ?_, h.unlisted⟩
  simp only [ListedQueue.goto, Function.update_self]
  exact hp

/-- What is not in `dequeue` has nothing in hand. -/
theorem Ok.hand_eq (h : s.Ok v r) (hout : (s.queue.deq ()).Out) : v.laneQueue.hand () = none := by
  obtain ⟨last, hd⟩ := hout
  have hok := h.good.consumer ()
  rw [hd] at hok
  exact hok

theorem Ok.call {q : ConcurrentQueue ι Unit α} {best : ι} (h : s.Ok v r)
    (hout : (s.queue.deq ()).Out) (hne : v.laneQueue.lanes best ≠ [])
    (hs : s.queue.step (.tryDequeue () best) = some q) :
    ∃ v', v'.laneQueue = v.laneQueue ∧ Ok v' r ({ s with queue := q }.goto () (.inBest best)) := by
  obtain ⟨v', ⟨hg, -⟩, hpath, hser⟩ := h.serial.step h.good hs
  have hsame : v'.laneQueue = v.laneQueue := hpath.eq_of_nil
  have hser : Serial v'.laneQueue q r := hser.elim id fun hact => by cases hact.1
  obtain ⟨last, hd⟩ := hout
  simp only [ConcurrentQueue.step, hd, Option.some.injEq] at hs
  subst hs
  refine ⟨v', hsame, hg, hser, ?_, fun i hi => ?_⟩
  · simp only [ListedQueue.goto, ConcurrentQueue.setDeq, Function.update_self, Finds, hsame]
    exact ⟨by rintro ⟨last, ⟨⟩⟩, .inl ⟨trivial, hne⟩⟩
  · rw [hsame]
    exact h.unlisted i hi

/-- With something to be found, `dequeue` does not come back with nothing. -/
theorem Ok.inside {q : ConcurrentQueue ι Unit α} {best : ι} (h : s.Ok v r)
    (hp : s.scan () = .inBest best) (hs : s.queue.step (.dequeue ()) = some q)
    (hs' : s' = { s with queue := q }.goto ()
      ((q.deq ()).back (.reloadList best) (.inBest best))) :
    ∃ v' r', EventPath LaneQueue.Next v.laneQueue (event s (.next ()) s').toList v'.laneQueue ∧
      Ok v' r' s' ∧ s'.scan () ≠ .idle (some none) := by
  have hfinds := h.finds
  rw [hp] at hfinds
  obtain ⟨-, hfinds⟩ := hfinds
  obtain ⟨v', ⟨hg, -⟩, hpath, hser⟩ := h.serial.dequeueStep h.good hs
  have hr : settle v.laneQueue r (s.queue.deq ()) ≠ none := by
    rcases hfinds with ⟨hd, hne⟩ | ⟨hd, hne⟩
    · rw [hd, settle, ne_eq, List.head?_eq_none_iff]
      exact hne
    · cases hdeq : s.queue.deq () with
      | loadTail i => exact absurd hdeq (hd i)
      | _ => exact hne
  generalize settle v.laneQueue r (s.queue.deq ()) = r' at hser hr
  have hunlisted : ∀ i, i ∉ s.producerListTail →
      q.enq i = .idle none ∧ v'.laneQueue.lanes i = [] := by
    intro i hi
    rw [(ConcurrentQueue.dequeueStep_left hs).2.2]
    exact ⟨(h.unlisted i hi).1, lanes_of_dequeue hpath (h.unlisted i hi).2⟩
  by_cases hout : (q.deq ()).Out
  · -- the call is over, and has returned what it was to return
    obtain ⟨last, hlast⟩ := hout
    obtain ⟨a, rfl⟩ := Option.ne_none_iff_exists'.mp hr
    have hret : q.deq () = .idle (some (some a)) := by
      have hexp := hser.expects
      rw [hlast] at hexp
      rcases hexp with rfl | rfl
      · exact absurd hlast (ConcurrentQueue.dequeueStep_returns hs)
      · exact hlast
    have hscan : s'.scan () = .idle (some (some a)) := by
      rw [hs', hret]
      exact scan_goto ..
    have hevent : event s (.next ()) s' = Queue.event s.queue (.dequeue ()) q := by
      cases hd : s.queue.deq () with
      | fetchHead i =>
          simp only [ConcurrentQueue.step, ConcurrentQueue.dequeueStep, hd, Option.some.injEq] at hs
          rw [← hs, ConcurrentQueue.setDeq] at hret
          simp only [Function.update_self] at hret
          cases hret
      | _ => simp only [event, Queue.event, hd, hscan, hret, TryDequeue.answer?, Dequeue.answer?,
          Option.map_some]
    refine ⟨v', some a, ?_, ⟨?_, ?_, ?_, ?_⟩, ?_⟩
    · rw [hevent]
      exact hpath
    · rw [hs']
      exact hg
    · rw [hs']
      exact hser
    · rw [hscan]
      rw [hs']
      exact ⟨_, hret⟩
    · rw [hs']
      exact hunlisted
    · rw [hscan]
      simp
  · have hscan : s'.scan () = .inBest best := by
      rw [hs', Dequeue.back_of_not_out hout]
      exact scan_goto ..
    have hnone : (q.deq ()).answer? = none := by
      cases hd : q.deq () with
      | idle last => exact absurd ⟨last, hd⟩ hout
      | _ => rfl
    have hevent : event s (.next ()) s' = Queue.event s.queue (.dequeue ()) q := by
      cases hd : s.queue.deq () <;>
        simp only [event, Queue.event, hd, hscan, hnone, TryDequeue.answer?, Option.map_none]
    refine ⟨v', r', ?_, ⟨?_, ?_, ?_, ?_⟩, ?_⟩
    · rw [hevent]
      exact hpath
    · rw [hs']
      exact hg
    · rw [hs']
      exact hser
    · rw [hscan]
      rw [hs']
      exact ⟨hout, .inr ⟨fun j => ConcurrentQueue.ne_loadTail hs, hr⟩⟩
    · rw [hs']
      exact hunlisted
    · rw [hscan]
      simp

/-! ## Runs -/

/-- Producer `i` has elements, and the call will come to it, or has found another one that
has; or it has found something. -/
def Awaits (t : LaneQueue ι Unit α) (s : ListedQueue ι Unit α) (i : ι) : Prop :=
  match s.scan () with
  | .loadList => t.lanes i ≠ [] ∧ i ∈ s.producerListTail
  | .loadTail ptr ptrs score => t.lanes i ≠ [] ∧ (0 < score.nonEmptyCount ∨ i ∈ ptr :: ptrs)
  | .loadHead ptr ptrs score tail => t.lanes i ≠ [] ∧ (0 < score.nonEmptyCount ∨ i ∈ ptrs ∨
      i = ptr ∧ circularLessThan (s.queue.producers ptr).headIndex tail = true)
  | .idle last => last ≠ some none
  | _ => True

omit [DecidableEq ι] in
theorem Awaits.visit {score : Score ι} {ptrs : List ι} (hscan : s.scan () = score.visit ptrs)
    (hne : t.lanes i ≠ []) (h : 0 < score.nonEmptyCount ∨ i ∈ ptrs) : Awaits t s i := by
  have hdone : s.scan () = score.done → 0 < score.nonEmptyCount → Awaits t s i := by
    intro hdone hpos
    rw [Score.done, if_pos hpos] at hdone
    rw [Awaits, hdone]
    cases score.best <;> trivial
  cases ptrs with
  | nil => exact hdone hscan (h.resolve_right List.not_mem_nil)
  | cons ptr ptrs =>
      rw [Score.visit] at hscan
      split at hscan
      · rw [Awaits, hscan]
        exact ⟨hne, h⟩
      · next hcount => exact hdone hscan (by omega)

omit [DecidableEq ι] in
/-- What producers do does not make an end of it. -/
theorem Awaits.mono (h : Awaits t s i) (hscan : s'.scan = s.scan)
    (hlist : ∀ j ∈ s.producerListTail, j ∈ s'.producerListTail)
    (hhead : ∀ j, (s'.queue.producers j).headIndex = (s.queue.producers j).headIndex)
    (hlanes : ∀ j, t.lanes j ≠ [] → t'.lanes j ≠ []) : Awaits t' s' i := by
  unfold Awaits at h ⊢
  rw [hscan]
  cases hp : s.scan () with
  | loadList =>
      simp only [hp] at h
      exact ⟨hlanes i h.1, hlist i h.2⟩
  | loadTail =>
      simp only [hp] at h
      exact ⟨hlanes i h.1, h.2⟩
  | loadHead =>
      simp only [hp] at h
      refine ⟨hlanes i h.1, h.2.imp_right fun hmem => hmem.imp_right fun hptr => ⟨hptr.1, ?_⟩⟩
      rw [hhead]
      exact hptr.2
  | idle last =>
      simp only [hp] at h
      exact h
  | _ => trivial

/-- A step of a producer of the list. -/
theorem Ok.produce {q : ConcurrentQueue ι Unit α} {act : Queue.Action ι Unit α} (h : s.Ok v r)
    (hs : s.queue.step act = some q) (hact : act.producer? = some i)
    (hi : i ∈ s.producerListTail) :
    ∃ v', EventPath LaneQueue.Next v.laneQueue (Queue.event s.queue act q).toList v'.laneQueue ∧
      Ok v' r { s with queue := q } ∧
      ∀ j, Awaits v.laneQueue s j → Awaits v'.laneQueue { s with queue := q } j := by
  obtain ⟨v', hg, hpath, hser⟩ := h.serial.produced h.good hs hact
  obtain ⟨hdeq, hsame, henq⟩ := s.queue.produce_keeps hs hact
  obtain ⟨hlonger, hother⟩ := lanes_of_produce hact hpath
  have hhead : ∀ j, (q.producers j).headIndex = (s.queue.producers j).headIndex :=
    fun j => (hsame j).headIndex
  have hlanes : ∀ j, v.laneQueue.lanes j ≠ [] → v'.laneQueue.lanes j ≠ [] := fun j hne hnil =>
    hne (List.prefix_nil.mp (hnil ▸ hlonger j))
  refine ⟨v', hpath, ⟨hg, hser, ?_, fun j hj => ?_⟩, fun j hj => hj.mono rfl (fun _ => id) hhead
    hlanes⟩
  · show Finds v'.laneQueue q.producers (q.deq ()) r (s.scan ())
    rw [hdeq]
    exact h.finds.mono hhead hlanes
  · have hne : j ≠ i := fun heq => hj (heq ▸ hi)
    show q.enq j = _ ∧ _
    rw [henq j hne, hother j hne]
    exact h.unlisted j hj

/-- Whoever is inside `enqueue` is in the list. -/
theorem Ok.listed (h : s.Ok v r) (hi : s.queue.enq i ≠ .idle none) : i ∈ s.producerListTail := by
  by_contra hnot
  exact hi (h.unlisted i hnot).1

theorem Ok.answer_none {p : TryDequeue ι α} (h : s.Ok v r) (hout : (s.queue.deq ()).Out)
    (hp : p.answer? = none ∨ p.answer? = some none) :
    EventPath LaneQueue.Next v.laneQueue (event s (.next ()) (s.goto () p)).toList v.laneQueue := by
  have hhand := h.hand_eq hout
  obtain ⟨last, hd⟩ := hout
  rcases hp with hp | hp
  · simp only [event, scan_goto, hp, hd]
    exact .nil _
  · simp only [event, scan_goto, hp]
    have hsame : { v.laneQueue with hand := Function.update v.laneQueue.hand () none } =
        v.laneQueue := by
      rw [← hhand, Function.update_eq_self]
    have hnext := LaneQueue.Next.answer v.laneQueue ()
    rw [hsame, hhand] at hnext
    exact .cons hnext (.nil _)

theorem Ok.next (h : s.Ok v r) (hs : s.tryDequeueStep () = some s') :
    ∃ v' r', EventPath LaneQueue.Next v.laneQueue (event s (.next ()) s').toList v'.laneQueue ∧
      s'.Ok v' r' ∧ ∀ i, Awaits v.laneQueue s i → Awaits v'.laneQueue s' i := by
  have hfinds := h.finds
  unfold tryDequeueStep at hs
  cases hp : s.scan () with
  | idle | undefined => simp [hp] at hs
  | loadList =>
      rw [hp] at hfinds
      simp only [hp, Option.some.injEq] at hs
      subst hs
      refine ⟨v, r, h.answer_none hfinds (Score.visit_answer ..),
        h.goto (.visit hfinds (.inl ⟨rfl, rfl⟩) _), fun i hi => ?_⟩
      rw [Awaits, hp] at hi
      exact .visit (scan_goto ..) hi.1 (.inr hi.2)
  | loadTail ptr ptrs score =>
      rw [hp] at hfinds
      simp only [hp, Option.some.injEq] at hs
      subst hs
      refine ⟨v, r, h.answer_none hfinds.1 (.inl rfl), h.goto ⟨hfinds.1, hfinds.2,
        h.good.less_iff.mp⟩, fun i hi => ?_⟩
      rw [Awaits, hp] at hi
      rw [Awaits, scan_goto]
      refine ⟨hi.1, hi.2.imp_right fun hmem => ?_⟩
      rcases List.mem_cons.mp hmem with rfl | hmem
      · exact .inr ⟨rfl, h.good.less_iff.mpr hi.1⟩
      · exact .inl hmem
  | loadHead ptr ptrs score tail =>
      rw [hp] at hfinds
      obtain ⟨hout, hscore, hne⟩ := hfinds
      simp only [hp, Option.some.injEq] at hs
      subst hs
      refine ⟨v, r, h.answer_none hout (Score.visit_answer ..),
        h.goto (.visit hout (hscore.add hne) _), fun i hi => ?_⟩
      rw [Awaits, hp] at hi
      refine .visit (scan_goto ..) hi.1 ?_
      rw [Score.count_add, sizeApprox_pos_iff]
      rcases hi.2 with hpos | hmem | ⟨rfl, hless⟩
      · exact .inl (.inl hpos)
      · exact .inr hmem
      · exact .inl (.inr hless)
  | callBest best =>
      rw [hp] at hfinds
      simp only [hp, Option.map_eq_some_iff] at hs
      obtain ⟨q, hq, rfl⟩ := hs
      obtain ⟨v', hsame, hok⟩ := h.call hfinds.1 hfinds.2 hq
      refine ⟨v', r, ?_, hok, fun i _ => ?_⟩
      · obtain ⟨last, hd⟩ := hfinds.1
        simp only [event, scan_goto, TryDequeue.answer?, hd, hsame]
        exact .nil _
      · rw [Awaits, scan_goto]
        trivial
  | inBest best =>
      simp only [hp, Option.map_eq_some_iff] at hs
      obtain ⟨q, hq, hs⟩ := hs
      obtain ⟨v', r', hpath, hok, hsome⟩ := h.inside hp hq hs.symm
      refine ⟨v', r', hpath, hok, fun i _ => ?_⟩
      have hfinds' := hok.finds
      unfold Awaits
      cases hp' : s'.scan () with
      | idle last =>
          intro hlast
          rw [hlast] at hp'
          exact hsome hp'
      | inBest | callBest | reloadList | callNext | inNext | undefined => trivial
      | _ =>
          rw [← hs, scan_goto] at hp'
          unfold Dequeue.back at hp'
          split at hp' <;> cases hp'
  | reloadList | callNext | inNext =>
      rw [hp] at hfinds
      exact hfinds.elim

theorem Ok.step {act : Action ι Unit α} (h : s.Ok v r) (hs : s.step act = some s') :
    ∃ v' r', EventPath LaneQueue.Next v.laneQueue (event s act s').toList v'.laneQueue ∧
      s'.Ok v' r' ∧
      (act ≠ .tryDequeue () → ∀ i, Awaits v.laneQueue s i → Awaits v'.laneQueue s' i) := by
  cases act with
  | addProducer i =>
      simp only [ListedQueue.step] at hs
      split at hs
      · cases hs
      · cases hs
        refine ⟨v, r, .nil _, ⟨h.good, h.serial, h.finds, fun j hj => ?_⟩, fun _ j hj =>
          hj.mono rfl (fun k hk => List.mem_cons_of_mem _ hk) (fun _ => rfl) fun _ => id⟩
        exact h.unlisted j fun hmem => hj (List.mem_cons_of_mem _ hmem)
  | tryEnqueue i a =>
      simp only [ListedQueue.step] at hs
      split at hs
      · next hi =>
          obtain ⟨q, hq, rfl⟩ := Option.map_eq_some_iff.mp hs
          obtain ⟨v', hpath, hok, hawaits⟩ := h.produce hq rfl hi
          exact ⟨v', r, hpath, hok, fun _ => hawaits⟩
      · cases hs
  | enqueue i =>
      obtain ⟨q, hq, rfl⟩ := Option.map_eq_some_iff.mp hs
      have hi : i ∈ s.producerListTail := h.listed fun he => by
        simp [ConcurrentQueue.step, ConcurrentQueue.enqueueStep, he] at hq
      obtain ⟨v', hpath, hok, hawaits⟩ := h.produce hq rfl hi
      exact ⟨v', r, hpath, hok, fun _ => hawaits⟩
  | tryGet i got =>
      obtain ⟨q, hq, rfl⟩ := Option.map_eq_some_iff.mp hs
      have hi : i ∈ s.producerListTail := h.listed fun he => by
        simp [ConcurrentQueue.step, ConcurrentQueue.tryGetStep, he] at hq
      obtain ⟨v', hpath, hok, hawaits⟩ := h.produce hq rfl hi
      exact ⟨v', r, hpath, hok, fun _ => hawaits⟩
  | tryDequeue c =>
      have hfinds := h.finds
      simp only [ListedQueue.step] at hs
      split at hs
      · next last hp =>
          cases hs
          rw [show s.scan () = .idle last from hp] at hfinds
          exact ⟨v, r, .nil _, h.goto hfinds, fun hne => absurd rfl hne⟩
      · cases hs
  | next c =>
      obtain ⟨v', r', hpath, hok, hawaits⟩ := h.next hs
      exact ⟨v', r', hpath, hok, fun _ => hawaits⟩

/-- What every run from the constructor comes to. -/
theorem Ok.reached {blockCount : Nat} {blockIndex : ι → Bool} {value : ι → Size → Option BlockId}
    {as : List (Action ι Unit α)}
    (hrun : machine.run (.initial blockCount blockIndex value) as = some s) :
    ∃ (v : View ι Unit α) (r : Option α), EventPath LaneQueue.Next .empty
      (machine.trace event (.initial blockCount blockIndex value) as) v.laneQueue ∧ s.Ok v r := by
  obtain ⟨t, hpath, v, r, rfl, hok⟩ := Machine.along_true.refines
    (R := fun s t => ∃ (v : View ι Unit α) (r : Option α), v.laneQueue = t ∧ Ok v r s)
    (fun s act s' t ⟨v, r, hv, hok⟩ hs _ => by
      subst hv
      obtain ⟨v', r', hpath, hok', -⟩ := hok.step hs
      exact ⟨_, hpath, v', r', rfl, hok'⟩) ⟨.initial, none, rfl, .initial blockCount blockIndex
        value⟩ hrun
  exact ⟨v, r, hpath, hok⟩

/-- A call that loads the list while something is in comes back with something. -/
theorem Ok.finds_of_load {bs : List (Action ι Unit α)} (h : s.Ok v r)
    (hp : s.scan () = .loadList) (hne : v.laneQueue.lanes i ≠ [])
    (hrun : machine.run s bs = some s') (hbs : .tryDequeue () ∉ bs) :
    s'.scan () ≠ .idle (some none) := by
  have hi : i ∈ s.producerListTail := by
    by_contra hnot
    exact hne (h.unlisted i hnot).2
  have hstart : Awaits v.laneQueue s i := by
    rw [Awaits, hp]
    exact ⟨hne, hi⟩
  have hall : machine.Along (fun _ act _ => act ≠ .tryDequeue ()) s bs :=
    .of_forall_mem fun act hact heq => hbs (heq ▸ hact)
  obtain ⟨v', r', hok', hend⟩ := hall.invariant
    (I := fun s => ∃ (v : View ι Unit α) (r : Option α), Ok v r s ∧ Awaits v.laneQueue s i)
    (fun s act s' ⟨v, r, hok, hawaits⟩ hs hact => by
      obtain ⟨v', r', -, hok', hkeep⟩ := hok.step hs
      exact ⟨v', r', hok', hkeep hact i hawaits⟩) ⟨v, r, h, hstart⟩ hrun
  intro hnone
  rw [Awaits, hnone] at hend
  exact hend rfl

/-- Seen through `try_enqueue` and `try_dequeue` the queue does what a lane queue does, in
every run with one consumer; and the call of `dequeue` on the largest producer never comes
back with nothing. -/
theorem try_dequeue_refines (blockCount : Nat) (blockIndex : ι → Bool)
    (value : ι → Size → Option BlockId) {as : List (Action ι Unit α)}
    (hrun : machine.run (.initial blockCount blockIndex value) as = some s) :
    ∃ t : LaneQueue ι Unit α, EventPath LaneQueue.Next .empty
      (machine.trace event (.initial blockCount blockIndex value) as) t ∧ Shows t s.queue ∧
      s.scan () ≠ .undefined ∧ ∀ best, s.scan () ≠ .reloadList best := by
  obtain ⟨v, r, hpath, hok⟩ := Ok.reached hrun
  have hfinds := hok.finds
  refine ⟨v.laneQueue, hpath, hok.good.shows, fun hp => ?_, fun best hp => ?_⟩
  · rw [hp] at hfinds
    exact hfinds
  · rw [hp] at hfinds
    exact hfinds

/-- Two producers, of which one enqueues an element, and a call that looks at both. -/
def pickUp : List (Action Bool Unit Nat) :=
  [.addProducer true, .addProducer false, .tryEnqueue false 7] ++
    List.replicate 10 (.enqueue false) ++ .tryDequeue () :: List.replicate 17 (.next ())

theorem try_dequeue_refines_pickUp : ∃ t : LaneQueue Bool Unit Nat,
    EventPath LaneQueue.Next .empty
      [.push false 7, .claim () false 7, .answer () (some 7)] t := by
  have hsome : (machine.run (.initial 2 (fun _ => true) fun _ _ => none) pickUp).isSome = true := by
    decide +kernel
  obtain ⟨t, hpath, -⟩ := try_dequeue_refines 2 (fun _ => true) (fun _ _ => none)
    (Option.some_get hsome).symm
  have htrace : machine.trace event (.initial 2 (fun _ => true) fun _ _ => none) pickUp =
      [.push false 7, .claim () false 7, .answer () (some 7)] := by decide +kernel
  exact ⟨t, htrace ▸ hpath⟩

/-- If any producer is not empty when the one consumer loads the list, its call of
`try_dequeue` comes back with an element, whatever the producers do meanwhile. -/
theorem try_dequeue_finds (blockCount : Nat) (blockIndex : ι → Bool)
    (value : ι → Size → Option BlockId) {as bs : List (Action ι Unit α)}
    (hrun : machine.run (.initial blockCount blockIndex value) as = some s)
    (hp : s.scan () = .loadList)
    (hne : (s.queue.producers i).headIndex ≠ (s.queue.producers i).tailIndex)
    (hrun' : machine.run s bs = some s') (hbs : .tryDequeue () ∉ bs) :
    s'.scan () ≠ .idle (some none) := by
  obtain ⟨v, r, -, hok⟩ := Ok.reached hrun
  have hlane : v.laneQueue.lanes i ≠ [] := by
    intro hnil
    have hlen := hok.good.length_eq i
    rw [hnil] at hlen
    exact hne (sub_eq_zero.mp (BitVec.eq_of_toNat_eq hlen)).symm
  exact hok.finds_of_load hp hlane hrun' hbs

theorem try_dequeue_finds_pickUp : ∃ s s' : ListedQueue Bool Unit Nat,
    machine.run (.initial 2 (fun _ => true) fun _ _ => none) (pickUp.take 14) = some s ∧
      machine.run s (pickUp.drop 14) = some s' ∧ s'.scan () ≠ .idle (some none) := by
  have hplaces : (machine.run (.initial 2 (fun _ => true) fun _ _ => none)
      (pickUp.take 14)).map (fun s => (s.scan (), s.producerListTail,
        (s.queue.producers false).headIndex, (s.queue.producers false).tailIndex,
        (machine.run s (pickUp.drop 14)).isSome)) =
      some (.loadList, [false, true], 0#64, 1#64, true) := by decide +kernel
  obtain ⟨s, hrun, hs⟩ := Option.map_eq_some_iff.mp hplaces
  simp only [Prod.mk.injEq] at hs
  obtain ⟨hp, hlist, hhead, htail, hsome⟩ := hs
  obtain ⟨s', hrun'⟩ := Option.isSome_iff_exists.mp hsome
  refine ⟨s, s', hrun, hrun', ?_⟩
  exact try_dequeue_finds 2 (fun _ => true) (fun _ _ => none) hrun hp (i := false)
    (by rw [hhead, htail]; decide) hrun' (by simp [pickUp])

end ListedQueue

end Rtlog.Queue
