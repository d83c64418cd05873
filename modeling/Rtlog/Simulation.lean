/-
# `Rtlog.Simulation` — `Rtlog.System` says what the program does

Every run of the program with the queue's own code is answered by a run of `Rtlog.System`
that has the same record (`program_refines`).  A step inside the queue is answered by

    tailIndex.store          `try_enqueue` succeeds      `enqueue t true`
    return of `false`        `try_enqueue` is refused    `enqueue t false`
    headIndex.fetch_add      `try_dequeue` takes a head  `consume ⟨some t, _⟩`
    return of `false`        `try_dequeue` finds nothing `consume ⟨none, _⟩`

and every other by nothing.  Between taking a message and returning it the consumer of
the program is still in `try_dequeue`, and the answering one already at `format`.
-/
import Rtlog.Queue.Scanning
import Rtlog.Program

namespace Rtlog

namespace Queue

variable {ι κ α : Type}

/-! ## What a producer has in hand -/

/-- The element that a thread in `enqueue` is to put in. -/
def Enqueue.element? : Enqueue α → Option α
  | .loadHead a | .insertEntry a | .storeKey a _ | .storeTail a _ | .loadPool a _
  | .fetchPool a _ | .tryGet a _ | .resetEmpty a _ _ | .publish a _ _ | .construct a
  | .storeTailIndex a => some a
  | .idle _ | .rewind _ | .unpublish _ | .undefined => none

/-- The thread is in `enqueue`, with no other element than the one it had. -/
structure Enqueue.Keeps (e e' : Enqueue α) : Prop where
  inside : ∀ last, e' ≠ .idle last
  element : ∀ a, e'.element? = some a → e.element? = some a

variable [DecidableEq ι] [DecidableEq κ] {q q' : ConcurrentQueue ι κ α} {i : ι}

omit [DecidableEq κ] in
theorem ConcurrentQueue.enq_setEnq (q : ConcurrentQueue ι κ α) (i : ι) (e : Enqueue α) :
    (q.setEnq i e).enq i = e := Function.update_self ..

omit [DecidableEq κ] in
/-- A step in `enqueue` puts the element in, or gives up, or keeps it. -/
theorem ConcurrentQueue.enqueueStep_cases (hs : q.enqueueStep i = some q') :
    (∃ a, q.enq i = .storeTailIndex a ∧ q'.enq i = .idle (some true)) ∨
      (∀ a, q.enq i ≠ .storeTailIndex a) ∧
        (q'.enq i = .idle (some false) ∨ (q.enq i).Keeps (q'.enq i)) := by
  cases he : q.enq i with
  | idle | undefined | tryGet => simp [enqueueStep, he] at hs
  | storeTailIndex a =>
      simp only [enqueueStep, he, Option.some.injEq] at hs
      exact .inl ⟨a, rfl, hs ▸ enq_setEnq ..⟩
  | unpublish s =>
      simp only [enqueueStep, he, Option.some.injEq] at hs
      exact .inr ⟨by simp, .inl (hs ▸ enq_setEnq ..)⟩
  | construct a =>
      cases hb : (q.producers i).tailBlock with
      | none | some =>
          simp only [enqueueStep, he, hb, Option.some.injEq] at hs
          refine .inr ⟨by simp, .inr ?_⟩
          rw [← hs, enq_setEnq]
          exact ⟨by simp, by simp [Enqueue.element?]⟩
  | loadHead a | insertEntry a =>
      simp only [enqueueStep, he, Option.some.injEq] at hs
      refine .inr ⟨by simp, ?_⟩
      rw [← hs, enq_setEnq]
      split
      · first | exact .inl rfl | exact .inr ⟨by simp, by simp [Enqueue.element?]⟩
      · first | exact .inl rfl | exact .inr ⟨by simp, by simp [Enqueue.element?]⟩
  | loadPool a s | fetchPool a s =>
      simp only [enqueueStep, he, Option.some.injEq] at hs
      refine .inr ⟨by simp, .inr ?_⟩
      rw [← hs, enq_setEnq]
      split <;> exact ⟨by simp, by simp [Enqueue.element?]⟩
  | _ =>
      simp only [enqueueStep, he, Option.some.injEq] at hs
      refine .inr ⟨by simp, .inr ?_⟩
      rw [← hs, enq_setEnq]
      exact ⟨by simp, by simp [Enqueue.element?]⟩

omit [DecidableEq κ] in
theorem ConcurrentQueue.tryGetStep_keepsElement {got : Option BlockId}
    (hs : q.tryGetStep i got = some q') : (q.enq i).Keeps (q'.enq i) := by
  cases he : q.enq i with
  | tryGet a s =>
      cases got with
      | none =>
          simp only [tryGetStep, he, Option.some.injEq] at hs
          rw [← hs, enq_setEnq]
          exact ⟨by simp, by simp [Enqueue.element?]⟩
      | some b =>
          simp only [tryGetStep, he] at hs
          split at hs
          · cases hs
            rw [enq_setEnq]
            exact ⟨by simp, by simp [Enqueue.element?]⟩
          · cases hs
  | _ => simp [tryGetStep, he] at hs

theorem ConcurrentQueue.step_tryEnqueue {a : α} (hs : q.step (.tryEnqueue i a) = some q') :
    (∃ last, q.enq i = .idle last) ∧ (∀ last, q'.enq i ≠ .idle last) ∧
      ∀ b, (q'.enq i).element? = some b → b = a := by
  cases he : q.enq i with
  | idle last =>
      simp only [ConcurrentQueue.step, he, Option.some.injEq] at hs
      refine ⟨⟨last, rfl⟩, ?_⟩
      rw [← hs, enq_setEnq, ImplicitProducer.enter]
      split
      · exact ⟨by simp, fun b hb => (Option.some.inj hb).symm⟩
      · exact ⟨by simp, fun b hb => (Option.some.inj hb).symm⟩
  | _ => simp [ConcurrentQueue.step, he] at hs

namespace ListedQueue

variable {s s' : ListedQueue ι Unit α}

/-- Producers are not concerned by the consumer. -/
theorem enq_of_next (hs : s.tryDequeueStep () = some s') : s'.queue.enq = s.queue.enq := by
  have hcall : ∀ {q : ConcurrentQueue ι Unit α} {j : ι}, s.queue.step (.tryDequeue () j) = some q →
      q.enq = s.queue.enq := by
    intro q j hq
    cases hd : s.queue.deq () with
    | idle last =>
        simp only [ConcurrentQueue.step, hd, Option.some.injEq] at hq
        exact hq ▸ rfl
    | _ => simp [ConcurrentQueue.step, hd] at hq
  unfold tryDequeueStep at hs
  split at hs
  · cases hs
  · cases hs
  · cases hs; rfl
  · cases hs; rfl
  · cases hs; rfl
  · obtain ⟨q, hq, rfl⟩ := Option.map_eq_some_iff.mp hs
    exact hcall hq
  · obtain ⟨q, hq, rfl⟩ := Option.map_eq_some_iff.mp hs
    exact (ConcurrentQueue.dequeueStep_left hq).2.2
  · cases hs; rfl
  · obtain ⟨q, hq, rfl⟩ := Option.map_eq_some_iff.mp hs
    exact hcall hq
  · obtain ⟨q, hq, rfl⟩ := Option.map_eq_some_iff.mp hs
    exact (ConcurrentQueue.dequeueStep_left hq).2.2

omit [DecidableEq ι] in
/-- What a step of the consumer may show. -/
theorem event_next (s s' : ListedQueue ι Unit α) :
    (s.event (.next ()) s' = none ∨ ∃ i a, s.event (.next ()) s' = some (.claim () i a)) ∧
        (s'.scan ()).answer? = none ∨
      ∃ r, s.event (.next ()) s' = some (.answer () r) ∧ s'.scan () = .idle (some r) := by
  cases hr : (s'.scan ()).answer? with
  | none =>
      refine .inl ⟨?_, rfl⟩
      cases hd : s.queue.deq () with
      | fetchHead i =>
          simp only [event, hr, hd]
          cases hfront : s.queue.front i with
          | none => exact .inl rfl
          | some a => exact .inr ⟨i, a, rfl⟩
      | _ => exact .inl (by simp only [event, hr, hd])
  | some r =>
      refine .inr ⟨r, by simp only [event, hr], ?_⟩
      cases hp : s'.scan () with
      | idle last =>
          rw [hp] at hr
          exact congrArg _ hr
      | _ =>
          rw [hp] at hr
          cases hr

end ListedQueue

end Queue

open Queue (Enqueue View ListedQueue)

variable {T : LoggerTraits}

/-! ## The relation -/

/-- A thread that calls `write`, in the program and in the system. -/
def WriterOk : Writer T → Enqueue (ArgumentArray T) → Producer T → Prop
  | .outside x, e, y => y = x ∧ ∃ last, e = .idle last
  | .inQueue, e, y => ∃ array, y = .offering array ∧ ∀ b, e.element? = some b → b = array

/-- The consumer, in the program and in the system, when it has `hand` in hand. -/
def ConsumerOk (hand : Option (ArgumentArray T)) (pc pc' : ConsumerPc)
    (array array' : ArgumentArray T) : Prop :=
  match hand with
  | none => pc' = pc ∧ array' = array
  | some a => pc = .tryDequeue ∧ pc' = .format ∧ array' = a

/-- `s` is what the system has made of the program `p`. -/
structure Refines (v : View Tid Unit (ArgumentArray T)) (r : Option (ArgumentArray T))
    (p : Program T) (s : Sys T) : Prop where
  ok : p.queue.Ok v r
  mem : s.mem = p.mem
  level : s.logger.level = p.level
  queue : s.logger.queue = v.laneQueue.lanes
  writer : ∀ t, WriterOk (p.writers t) (p.queue.queue.enq t) (s.producers t)
  stop : s.stop = p.stop
  consumer : ConsumerOk (v.laneQueue.hand ()) p.pc s.pc p.argumentArray s.argumentArray
  formatter : s.formatter = p.formatter
  stream : s.stream = p.stream
  stopper : s.stopper = p.stopper

variable {v : View Tid Unit (ArgumentArray T)} {r : Option (ArgumentArray T)} {p p' : Program T}
  {s : Sys T}

theorem Refines.init (mem : Mem) (level : LogLevel) (blockCount : Nat) (blockIndex : Tid → Bool)
    (value : Tid → Queue.Size → Option Queue.BlockId) :
    Refines (.initial : View Tid Unit (ArgumentArray T)) none
      (.init T mem level blockCount blockIndex value) (.init T mem level) where
  ok := .initial blockCount blockIndex value
  mem := rfl
  level := rfl
  queue := rfl
  writer _ := ⟨rfl, none, rfl⟩
  stop := rfl
  consumer := ⟨rfl, rfl⟩
  formatter := rfl
  stream := rfl
  stopper := rfl

theorem Refines.alive (h : Refines v r p s) (halive : p.alive = true) : s.alive = true := by
  have hc := h.consumer
  cases hhand : v.laneQueue.hand () with
  | none =>
      rw [hhand] at hc
      rw [Sys.alive, hc.1]
      exact halive
  | some a =>
      rw [hhand] at hc
      rw [Sys.alive, hc.2.1]
      rfl

/-- One thread goes on, and the others stay where they are. -/
theorem Refines.update (h : Refines v r p s) {t : Tid} {x : Writer T} {y : Producer T}
    {enq : Tid → Enqueue (ArgumentArray T)} (hx : WriterOk x (enq t) y)
    (henq : ∀ u, u ≠ t → enq u = p.queue.queue.enq u) (u : Tid) :
    WriterOk (Function.update p.writers t x u) (enq u) (Function.update s.producers t y u) := by
  rcases eq_or_ne u t with rfl | hne
  · rw [Function.update_self, Function.update_self]
    exact hx
  · rw [Function.update_of_ne hne, Function.update_of_ne hne, henq u hne]
    exact h.writer u

/-- What the callers of the logger and of the consumer do. -/
def Action.outer? : Action T → Option (Action T)
  | .enqueue _ _ | .consume _ => none
  | a => some a

def Program.Action.outer? : Program.Action T → Option (Rtlog.Action T)
  | .setLevel l => some (.setLevel l)
  | .overwrite ptr str => some (.overwrite ptr str)
  | .call t c alloc => some (.call t c alloc)
  | .stop => some .stop
  | _ => none

/-- The system answers the step by one of its own, or by none. -/
def Answered (p : Program T) (a : Program.Action T) (p' : Program T) (s : Sys T) : Prop :=
  a.outer? = none ∧ p.event a p' = .silent ∧ (∃ v r, Refines v r p' s) ∨
    ∃ b s' v r, b.outer? = a.outer? ∧ Sys.Step s b (p.event a p') s' ∧ Refines v r p' s'

theorem Answered.of_step {a : Program.Action T} {b : Action T} {ev : Event} {s' : Sys T}
    (hev : p.event a p' = ev) (hs : Sys.Step s b ev s') (h : Refines v r p' s')
    (houter : b.outer? = a.outer? := by rfl) : Answered p a p' s :=
  .inr ⟨b, s', v, r, houter, hev ▸ hs, h⟩

/-! ## Steps of threads that call `write` -/

theorem Refines.call {t : Tid} {c : Call T} {alloc : Nat → Bool} {last : Option WriteResult}
    (h : Refines v r p s) (halive : p.alive = true) (ht : p.writers t = .outside (.idle last)) :
    Answered p (.call t c alloc) { p with
      writers := Function.update p.writers t
        (.outside (.ofPrepared (CLogger.prepare alloc p.level c.msg))) } s := by
  obtain ⟨hs, hidle⟩ : s.producers t = .idle last ∧ _ := ht ▸ h.writer t
  have hstep := Sys.Step.call t c alloc (h.alive halive) hs
  rw [h.mem, h.level] at hstep
  exact .inr ⟨_, _, v, r, rfl, hstep,
    { h with mem := rfl, writer := h.update ⟨rfl, hidle⟩ fun _ _ => rfl }⟩

theorem Refines.addProducer {t : Tid} {q : ListedQueue Tid Unit (ArgumentArray T)}
    (h : Refines v r p s) (hs : p.queue.step (.addProducer t) = some q) :
    Answered p (.addProducer t) { p with queue := q } s := by
  obtain ⟨v', r', hpath, hok, -⟩ := h.ok.step hs
  have hsame : v'.laneQueue = v.laneQueue := hpath.eq_of_nil
  have henq : q.queue.enq = p.queue.queue.enq := by
    simp only [ListedQueue.step] at hs
    split at hs
    · cases hs
    · cases hs
      rfl
  refine .inl ⟨rfl, rfl, v', r', { h with
    ok := hok, queue := ?_, writer := fun u => ?_, consumer := ?_ }⟩
  · rw [hsame]
    exact h.queue
  · rw [henq]
    exact h.writer u
  · rw [hsame]
    exact h.consumer

theorem Refines.noProducer {t : Tid} {array : ArgumentArray T} (h : Refines v r p s)
    (halive : p.alive = true) (ht : p.writers t = .outside (.offering array)) :
    Answered p (.noProducer t) { p with
      writers := Function.update p.writers t (.outside (.idle (some (.returned false)))) } s := by
  obtain ⟨hs, hidle⟩ : s.producers t = .offering array ∧ _ := ht ▸ h.writer t
  exact .inr ⟨_, _, v, r, rfl, Sys.Step.refuse t (h.alive halive) hs,
    { h with writer := h.update ⟨rfl, hidle⟩ fun _ _ => rfl }⟩

theorem Refines.tryEnqueue {t : Tid} {array : ArgumentArray T}
    {q : ListedQueue Tid Unit (ArgumentArray T)} (h : Refines v r p s)
    (ht : p.writers t = .outside (.offering array))
    (hs : p.queue.step (.tryEnqueue t array) = some q) :
    Answered p (.tryEnqueue t)
      { p with queue := q, writers := Function.update p.writers t .inQueue } s := by
  obtain ⟨hoffer, -⟩ : s.producers t = .offering array ∧ _ := ht ▸ h.writer t
  obtain ⟨v', r', hpath, hok, -⟩ := h.ok.step hs
  have hsame : v'.laneQueue = v.laneQueue := hpath.eq_of_nil
  obtain ⟨q', hq, rfl⟩ : ∃ q', p.queue.queue.step (.tryEnqueue t array) = some q' ∧
      { p.queue with queue := q' } = q := by
    simp only [ListedQueue.step] at hs
    split at hs
    · exact Option.map_eq_some_iff.mp hs
    · cases hs
  obtain ⟨-, -, hother⟩ := p.queue.queue.produce_keeps hq rfl
  obtain ⟨-, -, helement⟩ := Queue.ConcurrentQueue.step_tryEnqueue hq
  refine .inl ⟨rfl, rfl, v', r', { h with
    ok := hok, queue := ?_, writer := fun u => ?_, consumer := ?_ }⟩
  · rw [hsame]
    exact h.queue
  · have hin : WriterOk .inQueue (q'.enq t) (s.producers t) := ⟨array, hoffer, helement⟩
    have hw : WriterOk (Function.update p.writers t .inQueue u) (q'.enq u)
        (Function.update s.producers t (s.producers t) u) := h.update hin hother u
    rw [Function.update_eq_self] at hw
    exact hw
  · rw [hsame]
    exact h.consumer

/-- A thread inside `enqueue` has not returned. -/
theorem Refines.inQueue {t : Tid} (h : Refines v r p s)
    (henq : ∀ last, p.queue.queue.enq t ≠ .idle last) :
    p.writers t = .inQueue ∧ ∃ array, s.producers t = .offering array ∧
      ∀ b, (p.queue.queue.enq t).element? = some b → b = array := by
  have hw := h.writer t
  cases ht : p.writers t with
  | outside x =>
      rw [ht] at hw
      obtain ⟨-, last, hidle⟩ := hw
      exact absurd hidle (henq last)
  | inQueue =>
      rw [ht] at hw
      exact ⟨rfl, hw⟩

/-- It goes on, with its element. -/
theorem Refines.goOn {t : Tid} {q : Queue.ConcurrentQueue Tid Unit (ArgumentArray T)}
    {v' : View Tid Unit (ArgumentArray T)} {r' : Option (ArgumentArray T)}
    (h : Refines v r p s) (henq : ∀ last, p.queue.queue.enq t ≠ .idle last)
    (hok : ListedQueue.Ok v' r' { p.queue with queue := q }) (hsame : v'.laneQueue = v.laneQueue)
    (hkeeps : (p.queue.queue.enq t).Keeps (q.enq t))
    (hother : ∀ u, u ≠ t → q.enq u = p.queue.queue.enq u) :
    Refines v' r' (p.enqueued t { p.queue with queue := q }) s := by
  obtain ⟨-, array, hoffer, helement⟩ := h.inQueue henq
  refine { h with ok := hok, queue := ?_, writer := fun u => ?_, consumer := ?_ }
  · rw [hsame]
    exact h.queue
  · have hin : WriterOk .inQueue (q.enq t) (s.producers t) :=
      ⟨array, hoffer, fun b hb => helement b (hkeeps.element b hb)⟩
    have hw : WriterOk (Function.update p.writers t .inQueue u) (q.enq u)
        (Function.update s.producers t (s.producers t) u) := h.update hin hother u
    rw [Function.update_eq_self] at hw
    simp only [Program.enqueued]
    split
    · next b hidle => exact absurd hidle (hkeeps.inside _)
    · exact hw
  · rw [hsame]
    exact h.consumer

theorem Refines.tryGet {t : Tid} {got : Option Queue.BlockId}
    {q : ListedQueue Tid Unit (ArgumentArray T)} (h : Refines v r p s)
    (hs : p.queue.step (.tryGet t got) = some q) :
    Answered p (.tryGet t got) (p.enqueued t q) s := by
  obtain ⟨v', r', hpath, hok, -⟩ := h.ok.step hs
  obtain ⟨q', hq, rfl⟩ := Option.map_eq_some_iff.mp hs
  obtain ⟨-, -, hother⟩ := p.queue.queue.produce_keeps hq rfl
  have henq : ∀ last, p.queue.queue.enq t ≠ .idle last := fun last he => by
    simp [Queue.ConcurrentQueue.step, Queue.ConcurrentQueue.tryGetStep, he] at hq
  exact .inl ⟨rfl, rfl, v', r', h.goOn henq hok hpath.eq_of_nil
    (Queue.ConcurrentQueue.tryGetStep_keepsElement hq) hother⟩

theorem Refines.enqueue {t : Tid} {q : ListedQueue Tid Unit (ArgumentArray T)}
    (h : Refines v r p s) (halive : p.alive = true) (hs : p.queue.step (.enqueue t) = some q) :
    Answered p (.enqueue t) (p.enqueued t q) s := by
  obtain ⟨v', r', hpath, hok, -⟩ := h.ok.step hs
  obtain ⟨q', hq, rfl⟩ := Option.map_eq_some_iff.mp hs
  obtain ⟨-, -, hother⟩ := p.queue.queue.produce_keeps hq rfl
  have henq : ∀ last, p.queue.queue.enq t ≠ .idle last := fun last he => by
    simp [Queue.ConcurrentQueue.step, Queue.ConcurrentQueue.enqueueStep, he] at hq
  obtain ⟨hin, array, hoffer, helement⟩ := h.inQueue henq
  rcases Queue.ConcurrentQueue.enqueueStep_cases hq with ⟨a, he, he'⟩ | ⟨hne, hcases⟩
  · -- the element is in
    obtain rfl : a = array := helement a (by rw [he]; rfl)
    have hevent : p.queue.event (.enqueue t) { p.queue with queue := q' } = some (.push t a) := by
      simp only [ListedQueue.event, Queue.event, he]
    rw [hevent] at hpath
    have hlanes : v'.laneQueue =
        { v.laneQueue with lanes := v.laneQueue.lanes.push t a } := by
      generalize v'.laneQueue = u at hpath
      cases hpath.of_singleton with
      | push => rfl
    have hseen : p.event (.enqueue t) (p.enqueued t { p.queue with queue := q' }) =
        .accepted t := by simp only [Program.event, Program.enqueued, hevent]
    refine .of_step (v := v') (r := r') hseen (Sys.Step.accept t (h.alive halive) hoffer)
      { h with ok := hok, queue := ?_, writer := fun u => ?_, consumer := ?_ }
    · rw [hlanes]
      exact congrArg (fun lanes => lanes.push t a) h.queue
    · simp only [Program.enqueued, he']
      exact h.update (x := .outside _) ⟨rfl, some true, he'⟩ hother u
    · rw [hlanes]
      exact h.consumer
  · have hnone : p.queue.event (.enqueue t) { p.queue with queue := q' } = none := by
      cases he : p.queue.queue.enq t with
      | storeTailIndex a => exact absurd he (hne a)
      | _ => simp only [ListedQueue.event, Queue.event, he]
    rw [hnone] at hpath
    have hsame : v'.laneQueue = v.laneQueue := hpath.eq_of_nil
    have hsilent : p.event (.enqueue t) (p.enqueued t { p.queue with queue := q' }) = .silent := by
      simp only [Program.event, Program.enqueued, hnone]
    rcases hcases with he' | hkeeps
    · -- it is refused
      refine .of_step (v := v') (r := r') hsilent (Sys.Step.refuse t (h.alive halive) hoffer)
        { h with ok := hok, queue := ?_, writer := fun u => ?_, consumer := ?_ }
      · rw [hsame]
        exact h.queue
      · simp only [Program.enqueued, he']
        exact h.update (x := .outside _) ⟨rfl, some false, he'⟩ hother u
      · rw [hsame]
        exact h.consumer
    · exact .inl ⟨rfl, hsilent, v', r', h.goOn henq hok hsame hkeeps hother⟩

/-! ## Steps of the consumer -/

theorem Refines.begin {q : ListedQueue Tid Unit (ArgumentArray T)} {spill : Nat}
    (h : Refines v r p s) (hpc : p.pc = .tryDequeue)
    (hs : p.queue.step (.tryDequeue ()) = some q) :
    Answered p (.consume spill) { p with queue := q } s := by
  obtain ⟨v', r', hpath, hok, -⟩ := h.ok.step hs
  have hsame : v'.laneQueue = v.laneQueue := hpath.eq_of_nil
  obtain ⟨last, hscan⟩ : ∃ last, p.queue.scan () = .idle last := by
    simp only [ListedQueue.step] at hs
    split at hs
    · next last hscan => exact ⟨last, hscan⟩
    · cases hs
  simp only [ListedQueue.step, hscan, Option.some.injEq] at hs
  subst hs
  have hsilent : p.event (.consume spill) { p with queue := p.queue.goto () .loadList } =
      .silent := by
    have hfinds := h.ok.finds
    rw [hscan] at hfinds
    obtain ⟨last, hd⟩ := hfinds
    simp only [Program.event, hpc, ListedQueue.event, ListedQueue.scan_goto,
      Queue.TryDequeue.answer?, hd]
  refine .inl ⟨rfl, hsilent, v', r', { h with ok := hok, queue := ?_, consumer := ?_ }⟩
  · rw [hsame]
    exact h.queue
  · rw [hsame]
    exact h.consumer

/-- What `try_dequeue` leaves the consumer at. -/
theorem Program.dequeued_of_none (p : Program T) {q : ListedQueue Tid Unit (ArgumentArray T)}
    (hnone : (q.scan ()).answer? = none) : p.dequeued q = { p with queue := q } := by
  unfold Program.dequeued
  split
  · next hscan => rw [hscan] at hnone; cases hnone
  · next hscan => rw [hscan] at hnone; cases hnone
  · rfl

theorem Refines.next {q : ListedQueue Tid Unit (ArgumentArray T)} {spill : Nat}
    (h : Refines v r p s) (hpc : p.pc = .tryDequeue) (hs : p.queue.step (.next ()) = some q) :
    Answered p (.consume spill) (p.dequeued q) s := by
  obtain ⟨v', r', hpath, hok, -⟩ := h.ok.step hs
  have henq := ListedQueue.enq_of_next hs
  have hconsumer := h.consumer
  have hwriter : ∀ t, WriterOk (p.writers t) (q.queue.enq t) (s.producers t) := fun t => by
    rw [henq]
    exact h.writer t
  rcases p.queue.event_next q with ⟨hevent, hnone⟩ | ⟨res, hevent, hscan⟩
  · have hstay : p.dequeued q = { p with queue := q } := p.dequeued_of_none hnone
    rw [hstay]
    rcases hevent with hevent | ⟨t, array, hevent⟩
    · rw [hevent] at hpath
      have hsame : v'.laneQueue = v.laneQueue := hpath.eq_of_nil
      have hsilent : p.event (.consume spill) { p with queue := q } = .silent := by
        simp only [Program.event, hpc, hevent]
      refine .inl ⟨rfl, hsilent, v', r', { h with
        ok := hok, queue := ?_, writer := hwriter, consumer := ?_ }⟩
      · rw [hsame]
        exact h.queue
      · rw [hsame]
        exact h.consumer
    · -- a message is taken
      rw [hevent] at hpath
      have hseen : p.event (.consume spill) { p with queue := q } = .dequeued t := by
        simp only [Program.event, hpc, hevent]
      generalize hu : v'.laneQueue = u at hpath
      cases hpath.of_singleton with
      | claim hhand hpop =>
          obtain ⟨rest, hlane, rfl⟩ := Lanes.pop?_eq_some.mp hpop
          rw [hhand] at hconsumer
          obtain ⟨hspc, -⟩ := hconsumer
          rw [← h.queue] at hlane
          refine .of_step (v := v') (r := r') hseen
            (Sys.Step.dequeue ⟨some t, spill⟩ (hspc.trans hpc) rfl hlane)
            { h with ok := hok, queue := ?_, writer := hwriter, consumer := ?_ }
          · rw [hu, ← h.queue]
          · rw [hu]
            show ConsumerOk (Function.update v.laneQueue.hand () (some array) ()) _ _ _ _
            rw [Function.update_self]
            exact ⟨hpc, rfl, rfl⟩
  · -- `try_dequeue` returns
    rw [hevent] at hpath
    have hsilent : p.event (.consume spill) (p.dequeued q) = .silent := by
      have hq : (p.dequeued q).queue = q := by
        unfold Program.dequeued
        split <;> rfl
      simp only [Program.event, hpc, hq, hevent]
    generalize hu : v'.laneQueue = u at hpath
    cases hpath.of_singleton with
    | answer =>
        have hhand : v'.laneQueue.hand () = none := by
          rw [hu]
          show Function.update v.laneQueue.hand () none () = none
          rw [Function.update_self]
        have hlanes : v'.laneQueue.lanes = v.laneQueue.lanes := by rw [hu]
        cases hold : v.laneQueue.hand () with
        | none =>
            rw [hold] at hscan hconsumer
            obtain ⟨hspc, harray⟩ := hconsumer
            have hstep := Sys.Step.dequeueNone ⟨none, spill⟩ (hspc.trans hpc) rfl
            refine .of_step (v := v') (r := r') hsilent hstep ?_
            simp only [Program.dequeued, hscan]
            refine { h with ok := hok, queue := ?_, writer := hwriter, consumer := ?_ }
            · rw [hlanes]
              exact h.queue
            · rw [hhand]
              exact ⟨rfl, harray⟩
        | some array =>
            rw [hold] at hscan hconsumer
            obtain ⟨-, hspc, harray⟩ := hconsumer
            refine .inl ⟨rfl, hsilent, v', r', ?_⟩
            simp only [Program.dequeued, hscan]
            refine { h with ok := hok, queue := ?_, writer := hwriter, consumer := ?_ }
            · rw [hlanes]
              exact h.queue
            · rw [hhand]
              exact ⟨hspc, harray⟩

/-- Outside `try_dequeue` the two are at the same place. -/
theorem Refines.same (h : Refines v r p s) (hpc : p.pc ≠ .tryDequeue) :
    v.laneQueue.hand () = none ∧ s.pc = p.pc ∧ s.argumentArray = p.argumentArray := by
  have hc := h.consumer
  cases hhand : v.laneQueue.hand () with
  | none =>
      rw [hhand] at hc
      exact ⟨rfl, hc⟩
  | some a =>
      rw [hhand] at hc
      exact absurd hc.1 hpc

/-- The two go on to the same place. -/
theorem Refines.moves (h : Refines v r p s) (hpc : p.pc ≠ .tryDequeue) (pc : ConsumerPc) :
    ConsumerOk (v.laneQueue.hand ()) pc pc p.argumentArray s.argumentArray := by
  obtain ⟨hhand, -, harray⟩ := h.same hpc
  rw [hhand]
  exact ⟨rfl, harray⟩

theorem Refines.consume {spill : Nat} (h : Refines v r p s) (hs : p.consumeStep spill = some p') :
    Answered p (.consume spill) p' s := by
  unfold Program.consumeStep at hs
  split at hs
  · next hpc =>
      cases hs
      have hne : p.pc ≠ .tryDequeue := by rw [hpc]; nofun
      have hstep := Sys.Step.testStop ⟨none, spill⟩ ((h.same hne).2.1.trans hpc)
      rw [h.stop] at hstep
      exact .of_step (by simp only [Program.event, hpc]) hstep
        { h with stop := rfl, consumer := h.moves hne _ }
  · next hpc =>
      split at hs
      · obtain ⟨q, hq, rfl⟩ := Option.map_eq_some_iff.mp hs
        exact h.begin hpc hq
      · obtain ⟨q, hq, rfl⟩ := Option.map_eq_some_iff.mp hs
        exact h.next hpc hq
  · next hpc =>
      have hne : p.pc ≠ .tryDequeue := by rw [hpc]; nofun
      obtain ⟨-, hspc, harray⟩ := h.same hne
      have hseen : ∀ p', p.event (.consume spill) p' = .formatted s.mem := fun p' => by
        simp only [Program.event, hpc, h.mem]
      split at hs
      · next text f hf =>
          cases hs
          rw [← h.mem, ← harray, ← h.formatter] at hf
          exact .of_step (hseen _) (Sys.Step.format ⟨none, spill⟩ (hspc.trans hpc) hf)
            { h with formatter := rfl, consumer := h.moves hne _ }
      · next e f hf =>
          cases hs
          rw [← h.mem, ← harray, ← h.formatter] at hf
          exact .of_step (hseen _) (Sys.Step.formatThrow ⟨none, spill⟩ (hspc.trans hpc) hf)
            { h with formatter := rfl, consumer := h.moves hne _ }
  · next text hpc =>
      cases hs
      have hne : p.pc ≠ .tryDequeue := by rw [hpc]; nofun
      exact .of_step (by simp only [Program.event, hpc])
        (Sys.Step.insert ⟨none, spill⟩ ((h.same hne).2.1.trans hpc))
        { h with
          stream := congrArg (Sys.insertText spill text) h.stream
          consumer := h.moves hne _ }
  · next hpc =>
      cases hs
      have hne : p.pc ≠ .tryDequeue := by rw [hpc]; nofun
      exact .of_step (by simp only [Program.event, hpc])
        (Sys.Step.flush ⟨none, spill⟩ ((h.same hne).2.1.trans hpc))
        { h with stream := congrArg Stream.flush h.stream, consumer := h.moves hne _ }
  · next hpc =>
      cases hs
      have hne : p.pc ≠ .tryDequeue := by rw [hpc]; nofun
      exact .of_step (by simp only [Program.event, hpc])
        (Sys.Step.sleep ⟨none, spill⟩ ((h.same hne).2.1.trans hpc))
        { h with consumer := h.moves hne _ }
  · next hpc =>
      cases hs
      have hne : p.pc ≠ .tryDequeue := by rw [hpc]; nofun
      exact .of_step (by simp only [Program.event, hpc])
        (Sys.Step.finalFlush ⟨none, spill⟩ ((h.same hne).2.1.trans hpc))
        { h with stream := congrArg Stream.flush h.stream, consumer := h.moves hne _ }
  · cases hs
  · cases hs

theorem Refines.stops (h : Refines v r p s) (halive : p.alive = true)
    (hs : p.stopStep = some p') : Answered p .stop p' s := by
  unfold Program.stopStep at hs
  split at hs
  · next hst =>
      cases hs
      exact .of_step (by simp only [Program.event, hst])
        (Sys.Step.stopCall (h.alive halive) (h.stopper.trans hst)) { h with stopper := rfl }
  · next hst =>
      cases hs
      exact .of_step (by simp only [Program.event, hst])
        (Sys.Step.stopStore (h.alive halive) (h.stopper.trans hst))
        { h with stop := rfl, stopper := rfl }
  · next hst =>
      split at hs
      · next hpc =>
          cases hs
          have hne : p.pc ≠ .tryDequeue := by rw [hpc]; nofun
          exact .of_step (by simp only [Program.event, hst])
            (Sys.Step.stopJoin ((h.same hne).2.1.trans hpc) (h.stopper.trans hst))
            { h with stopper := rfl }
      · cases hs
  · next hst =>
      cases hs
      exact .of_step (by simp only [Program.event, hst])
        (Sys.Step.stopClose (h.alive halive) (h.stopper.trans hst))
        { h with stream := congrArg Stream.flush h.stream, stopper := rfl }
  · cases hs

/-! ## Runs -/

theorem Refines.step {a : Program.Action T} (h : Refines v r p s) (hs : p.step a = some p') :
    Answered p a p' s := by
  unfold Program.step at hs
  split at hs
  · next halive =>
      cases a with
      | setLevel l =>
          cases hs
          exact .of_step rfl (Sys.Step.setLevel l (h.alive halive)) { h with level := rfl }
      | overwrite ptr str =>
          cases hs
          have hstep := Sys.Step.overwrite ptr str (h.alive halive)
          rw [h.mem] at hstep
          exact .of_step rfl hstep { h with mem := rfl }
      | consume spill => exact h.consume hs
      | stop => exact h.stops halive hs
      | call t c alloc =>
          simp only [Program.writeStep] at hs
          split at hs
          · next ht =>
              cases hs
              exact h.call halive ht
          · cases hs
      | addProducer t =>
          simp only [Program.writeStep] at hs
          split at hs
          · obtain ⟨q, hq, rfl⟩ := Option.map_eq_some_iff.mp hs
            exact h.addProducer hq
          · cases hs
      | noProducer t =>
          simp only [Program.writeStep] at hs
          split at hs
          · next ht =>
              split at hs
              · cases hs
              · cases hs
                exact h.noProducer halive ht
          · cases hs
      | tryEnqueue t =>
          simp only [Program.writeStep] at hs
          split at hs
          · next ht =>
              obtain ⟨q, hq, rfl⟩ := Option.map_eq_some_iff.mp hs
              exact h.tryEnqueue ht hq
          · cases hs
      | enqueue t =>
          obtain ⟨q, hq, rfl⟩ := Option.map_eq_some_iff.mp hs
          exact h.enqueue halive hq
      | tryGet t got =>
          obtain ⟨q, hq, rfl⟩ := Option.map_eq_some_iff.mp hs
          exact h.tryGet hq
  · cases hs

/-- A recorded step is answered by a recorded run of the system with the same record. -/
theorem Refines.recorded_step {w w₁ : Recorded (Program T) (Hist T)} {w' : World T}
    {a : Program.Action T} (hhist : w'.hist = w.hist) (h : Refines v r w.now w'.now)
    (hs : (Program.recorded T).step w a = some w₁) :
    ∃ (bs : List (Action T)) (w₁' : World T), bs.filterMap Action.outer? = a.outer?.toList ∧
      (recorded T).run w' bs = some w₁' ∧
        w₁'.hist = w₁.hist ∧ ∃ v r, Refines v r w₁.now w₁'.now := by
  obtain ⟨hs, hh⟩ := (Machine.withHistory_step_eq_some _ _).mp hs
  rcases h.step hs with ⟨houter, hsilent, v', r', h'⟩ | ⟨b, s', v', r', houter, hstep, h'⟩
  · refine ⟨[], w', by rw [houter]; rfl, rfl, ?_, v', r', h'⟩
    rw [hh, hsilent]
    exact hhist
  · refine ⟨[b], ⟨s', w'.hist.add (w.now.event a w₁.now)⟩, ?_, World.run_cons hstep rfl, ?_, v',
      r', h'⟩
    · rw [← houter]
      cases hb : b.outer? <;> simp [hb]
    · rw [hh, ← hhist]

theorem Refines.reached {mem : Mem} {level : LogLevel} {blockCount : Nat}
    {blockIndex : Tid → Bool} {value : Tid → Queue.Size → Option Queue.BlockId}
    {as : List (Program.Action T)} {w : Recorded (Program T) (Hist T)}
    (hrun : (Program.recorded T).run ⟨.init T mem level blockCount blockIndex value, .init⟩ as =
      some w) :
    ∃ (bs : List (Action T)) (s : Sys T),
      bs.filterMap Action.outer? = as.filterMap Program.Action.outer? ∧
        (recorded T).run (.init T mem level) bs = some ⟨s, w.hist⟩ ∧
        ∃ v r, Refines v r w.now s := by
  obtain ⟨bs, w', houter, hrun', hhist, v, r, h⟩ := Machine.simulation
    (R := fun (w : Recorded (Program T) (Hist T)) (w' : World T) =>
      w'.hist = w.hist ∧ ∃ v r, Refines v r w.now w'.now)
    (fun w w₁ w' a ⟨hhist, v, r, h⟩ hs => h.recorded_step hhist hs)
    (t := .init T mem level)
    ⟨rfl, .initial, none, .init mem level blockCount blockIndex value⟩ hrun
  refine ⟨bs, w'.now, houter, ?_, v, r, h⟩
  rw [← hhist]
  exact hrun'

/-- What can be seen of the program and of the system from outside the queue is the same. -/
structure Agrees (p : Program T) (s : Sys T) : Prop where
  mem : s.mem = p.mem
  level : s.logger.level = p.level
  writer : ∀ t x, p.writers t = .outside x → s.producers t = x
  stop : s.stop = p.stop
  stream : s.stream = p.stream
  stopper : s.stopper = p.stopper
  consumer : p.pc ≠ .tryDequeue →
    s.pc = p.pc ∧ s.argumentArray = p.argumentArray ∧ s.formatter = p.formatter

theorem Refines.agrees (h : Refines v r p s) : Agrees p s where
  mem := h.mem
  level := h.level
  writer t x ht := by
    have hw := h.writer t
    rw [ht] at hw
    exact hw.1
  stop := h.stop
  stream := h.stream
  stopper := h.stopper
  consumer hpc := ⟨(h.same hpc).2.1, (h.same hpc).2.2, h.formatter⟩

/-- Every run of the program, with the queue's own code and the threads interleaved inside it,
is answered by a run of the system in which the callers do the same and that has the same
record. -/
theorem program_refines {mem : Mem} {level : LogLevel} {blockCount : Nat}
    {blockIndex : Tid → Bool} {value : Tid → Queue.Size → Option Queue.BlockId}
    {as : List (Program.Action T)} {w : Recorded (Program T) (Hist T)}
    (hrun : (Program.recorded T).run ⟨.init T mem level blockCount blockIndex value, .init⟩ as =
      some w) :
    ∃ (bs : List (Action T)) (s : Sys T),
      bs.filterMap Action.outer? = as.filterMap Program.Action.outer? ∧
        (recorded T).run (.init T mem level) bs = some ⟨s, w.hist⟩ ∧ Agrees w.now s := by
  obtain ⟨bs, s, houter, hrun', v, r, h⟩ := Refines.reached hrun
  exact ⟨bs, s, houter, hrun', h.agrees⟩

/-! ## One message, from `write` to the file -/

/-- Seven arguments, and a buffer that a short line fits in. -/
def shortTraits : LoggerTraits where
  paramSize := 7
  bufferSize := 24
  defaultLevel := .info
  paramSize_lt := by decide
  bufferSize_pos := by decide

/-- `LOG_INFO(42)` without a time point, on thread 1. -/
def shortCall : Call shortTraits where
  msg := ⟨none, .ofInt .int32 1, .info, 0, .ofInt .int32 42, []⟩
  paramSize_gt := by decide
  admitted := by decide

def shortStart : Recorded (Program shortTraits) (Hist shortTraits) :=
  ⟨.init _ .blank .info 6 (fun _ => true) fun _ _ => none, .init⟩

/-- `write`, with the first block of a new producer. -/
def shortWrite : List (Program.Action shortTraits) :=
  [.call 1 shortCall fun _ => true, .addProducer 1, .tryEnqueue 1] ++
    List.replicate 10 (.enqueue 1)

/-- `consume()`, until it has written the message and found no other. -/
def shortConsume : List (Program.Action shortTraits) := List.replicate 30 (.consume 0)

/-- `stop()`, while the consumer sleeps. -/
def shortStop : List (Program.Action shortTraits) :=
  [.stop, .stop] ++ List.replicate 4 (.consume 0) ++ [.stop, .stop]

set_option maxRecDepth 4000 in
theorem short_run :
    (((Program.recorded _).run shortStart (shortWrite ++ shortConsume ++ shortStop)).map
      fun w => (w.now.stopper, w.hist.turns.length, w.now.stream.file)) =
        some (.returned, 1, ['1', ' ', 'I', 'N', 'F', 'O', ' ', ' ', '4', '2', ' ', '\n']) := by
  decide +kernel

theorem program_refines_short :
    ∃ w, (Program.recorded _).run shortStart (shortWrite ++ shortConsume ++ shortStop) = some w ∧
      w.hist.turns.length = 1 ∧
      ∃ (bs : List (Action shortTraits)) (s : Sys shortTraits),
        bs.filterMap Action.outer? =
            (shortWrite ++ shortConsume ++ shortStop).filterMap Program.Action.outer? ∧
          (recorded _).run (.init _ .blank .info) bs = some ⟨s, w.hist⟩ ∧ Agrees w.now s := by
  obtain ⟨w, hrun, hw⟩ := Option.map_eq_some_iff.mp short_run
  exact ⟨w, hrun, congrArg (fun x => x.2.1) hw, program_refines hrun⟩

end Rtlog
