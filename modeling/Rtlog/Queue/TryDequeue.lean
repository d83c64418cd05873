/-
# `Rtlog.Queue.TryDequeue` — `try_dequeue`, over the list of producers

What `rtlog` calls is not `dequeue` on a producer but `try_dequeue` on the queue.  It
goes through the producers, newest first, until it has seen three that are not empty,
and calls `dequeue` on the largest of them; if that comes back with nothing, it tries
all the others:

    producerListTail.load       loadList         producerListTail.load   reloadList
    ptr->tailIndex.load         loadTail         ptr->dequeue(item)      callNext, inNext
    ptr->headIndex.load         loadHead
    best->dequeue(item)         callBest, inBest

The list is only ever added to, at its tail, and a producer never changes the link it was
added with; so the producers that are reached from a tail are those that were in the list
when the tail was loaded.  The steps inside `dequeue`, and those of the producers, are the
steps of `Rtlog.Queue.Machine`.
-/
import Rtlog.Queue.Serial

namespace Rtlog.Queue

variable {ι κ α : Type}

/-! ## The state -/

/-- The variables of the first loop: `nonEmptyCount`, `best` and `bestSize`. -/
structure Score (ι : Type) where
  nonEmptyCount : Nat
  best : Option ι
  bestSize : Size
  deriving DecidableEq

/-- Where a thread is in `try_dequeue`.  `ptrs` are the producers from `ptr` on. -/
inductive TryDequeue (ι α : Type) where
  | idle (last : Option (Option α))
  | loadList
  | loadTail (ptr : ι) (ptrs : List ι) (score : Score ι)
  | loadHead (ptr : ι) (ptrs : List ι) (score : Score ι) (tail : Size)
  | callBest (best : ι)
  | inBest (best : ι)
  | reloadList (best : ι)
  | callNext (best ptr : ι) (ptrs : List ι)
  | inNext (best : ι) (ptrs : List ι)
  /-- Past a null `best`. -/
  | undefined
  deriving DecidableEq

/-- The queue, the producers in its list, newest first, and where the consumers are. -/
structure ListedQueue (ι κ α : Type) where
  queue : ConcurrentQueue ι κ α
  producerListTail : List ι
  scan : κ → TryDequeue ι α

namespace ListedQueue

/-- What a thread does next. -/
inductive Action (ι κ α : Type) where
  /-- `add_producer`, with the exchange that puts the producer on the list. -/
  | addProducer (i : ι)
  | tryEnqueue (i : ι) (element : α)
  | enqueue (i : ι)
  | tryGet (i : ι) (got : Option BlockId)
  | tryDequeue (c : κ)
  | next (c : κ)

end ListedQueue

/-! ## `try_dequeue` -/

/-- `size_approx`, from what it has loaded. -/
def sizeApprox (tail head : Size) : Size := if circularLessThan head tail then tail - head else 0#64

def Score.zero : Score ι := ⟨0, none, 0#64⟩

/-- The body of the first loop. -/
def Score.add (score : Score ι) (ptr : ι) (size : Size) : Score ι :=
  if 0#64 < size then
    if score.bestSize < size then ⟨score.nonEmptyCount + 1, some ptr, size⟩
    else { score with nonEmptyCount := score.nonEmptyCount + 1 }
  else score

/-- After the first loop. -/
def Score.done (score : Score ι) : TryDequeue ι α :=
  if 0 < score.nonEmptyCount then
    match score.best with
    | some best => .callBest best
    | none => .undefined
  else .idle (some none)

/-- The test of the first loop, at `ptrs`. -/
def Score.visit (score : Score ι) : List ι → TryDequeue ι α
  | [] => score.done
  | ptr :: ptrs => if score.nonEmptyCount < 3 then .loadTail ptr ptrs score else score.done

variable [DecidableEq ι] [DecidableEq κ]

/-- The second loop, at `ptrs`. -/
def tryNext (best : ι) : List ι → TryDequeue ι α
  | [] => .idle (some none)
  | ptr :: ptrs => if ptr ≠ best then .callNext best ptr ptrs else tryNext best ptrs

/-- After a step inside `dequeue`: where the thread is if it has returned `false`, and if it
has not returned. -/
def Dequeue.back (d : Dequeue ι α) (failed inside : TryDequeue ι α) : TryDequeue ι α :=
  match d with
  | .idle (some (some a)) => .idle (some (some a))
  | .idle _ => failed
  | _ => inside

namespace ListedQueue

variable (s : ListedQueue ι κ α)

def goto (c : κ) (p : TryDequeue ι α) : ListedQueue ι κ α :=
  { s with scan := Function.update s.scan c p }

omit [DecidableEq ι] in
@[simp] theorem scan_goto (c : κ) (p : TryDequeue ι α) : (s.goto c p).scan c = p :=
  Function.update_self ..

/-- The next step of consumer `c`. -/
def tryDequeueStep (c : κ) : Option (ListedQueue ι κ α) :=
  match s.scan c with
  | .idle _ | .undefined => none
  | .loadList => some (s.goto c (Score.zero.visit s.producerListTail))
  | .loadTail ptr ptrs score =>
      some (s.goto c (.loadHead ptr ptrs score (s.queue.producers ptr).tailIndex))
  | .loadHead ptr ptrs score tail =>
      let size := sizeApprox tail (s.queue.producers ptr).headIndex
      some (s.goto c ((score.add ptr size).visit ptrs))
  | .callBest best =>
      (s.queue.step (.tryDequeue c best)).map fun q => { s with queue := q }.goto c (.inBest best)
  | .inBest best =>
      (s.queue.step (.dequeue c)).map fun q =>
        { s with queue := q }.goto c ((q.deq c).back (.reloadList best) (.inBest best))
  | .reloadList best => some (s.goto c (tryNext best s.producerListTail))
  | .callNext best ptr ptrs =>
      (s.queue.step (.tryDequeue c ptr)).map fun q =>
        { s with queue := q }.goto c (.inNext best ptrs)
  | .inNext best ptrs =>
      (s.queue.step (.dequeue c)).map fun q =>
        { s with queue := q }.goto c ((q.deq c).back (tryNext best ptrs) (.inNext best ptrs))

def step : Action ι κ α → Option (ListedQueue ι κ α)
  | .addProducer i =>
      if i ∈ s.producerListTail then none
      else some { s with producerListTail := i :: s.producerListTail }
  | .tryEnqueue i a =>
      if i ∈ s.producerListTail then
        (s.queue.step (.tryEnqueue i a)).map fun q => { s with queue := q }
      else none
  | .enqueue i => (s.queue.step (.enqueue i)).map fun q => { s with queue := q }
  | .tryGet i got => (s.queue.step (.tryGet i got)).map fun q => { s with queue := q }
  | .tryDequeue c =>
      match s.scan c with
      | .idle _ => some (s.goto c .loadList)
      | _ => none
  | .next c => s.tryDequeueStep c

def machine : Machine (ListedQueue ι κ α) (Action ι κ α) := ⟨step⟩

/-- After the constructor: no producer yet. -/
def initial (blockCount : Nat) (blockIndex : ι → Bool) (value : ι → Size → Option BlockId) :
    ListedQueue ι κ α := ⟨.initial blockCount blockIndex value, [], fun _ => .idle none⟩

end ListedQueue

/-! ## What the callers see -/

/-- What a call has returned, when it has just done so. -/
def TryDequeue.answer? : TryDequeue ι α → Option (Option α)
  | .idle last => last
  | _ => none

namespace ListedQueue

/-- A call is answered when `try_dequeue` returns, and not when a `dequeue` inside it does. -/
def event (s : ListedQueue ι κ α) (act : Action ι κ α) (s' : ListedQueue ι κ α) :
    Option (LaneQueue.Event ι κ α) :=
  match act with
  | .addProducer _ | .tryEnqueue .. | .tryGet .. | .tryDequeue _ => none
  | .enqueue i => Queue.event s.queue (.enqueue i) s'.queue
  | .next c =>
      match (s'.scan c).answer?, s.queue.deq c with
      | some r, _ => some (.answer c r)
      | none, .fetchHead i => (s.queue.front i).map (.claim c i)
      | none, _ => none

end ListedQueue

end Rtlog.Queue
