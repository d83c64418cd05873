/-
# `Rtlog.Program` — the program, with the queue's own code

`Rtlog.System` takes the queue for a lane of messages per thread, of which an operation
is one step.  Here `try_enqueue` and `try_dequeue` are what `concurrentqueue.h` has, and
the threads interleave inside them, one atomic operation a step (`Rtlog.Queue.Machine`,
`Rtlog.Queue.TryDequeue`).  The rest of the program is as it was.

    addProducer t    `get_or_add_implicit_producer` creates a producer for thread `t`
    noProducer t     it cannot, and `try_enqueue` returns `false`
    tryEnqueue t     it has one, and calls `enqueue` on it
    enqueue t        the next step inside `enqueue`
    tryGet t got     the same, if it is `freeList.try_get()`
    consume spill    the next step of `consume()`, or of `try_dequeue` inside it

That a thread finds the producer again that it had before is said of the code in
`Rtlog.Queue.Producers`, and taken from there; so `addProducer t` is one step.  Threads that
have one id, one after the other, share a producer (`Rtlog.Queue.Threads`), and are one
thread here.
-/
import Rtlog.History
import Rtlog.Queue.TryDequeue

namespace Rtlog

open Queue (ListedQueue BlockId Size)

variable {T : LoggerTraits}

/-- A thread that calls `write`: outside `try_enqueue`, or inside `enqueue`. -/
inductive Writer (T : LoggerTraits) where
  | outside (p : Producer T)
  | inQueue

structure Program (T : LoggerTraits) where
  mem : Mem
  /-- `m_LogLevel` and `m_ArgumentQueue`. -/
  level : UInt32
  queue : ListedQueue Tid Unit (ArgumentArray T)
  writers : Tid → Writer T
  /-- `m_Stop`. -/
  stop : Bool
  pc : ConsumerPc
  argumentArray : ArgumentArray T
  formatter : CFormatter T
  stream : Stream
  stopper : StopperPc

namespace Program

inductive Action (T : LoggerTraits) where
  | setLevel (l : LogLevel)
  | overwrite (p : Ptr) (s : CString)
  | call (t : Tid) (c : Call T) (alloc : Nat → Bool)
  | addProducer (t : Tid)
  | noProducer (t : Tid)
  | tryEnqueue (t : Tid)
  | enqueue (t : Tid)
  | tryGet (t : Tid) (got : Option BlockId)
  | consume (spill : Nat)
  | stop

/-- A logger whose queue has `blockCount` blocks, and a consumer constructed on it. -/
def init (T : LoggerTraits) (mem : Mem) (level : LogLevel) (blockCount : Nat)
    (blockIndex : Tid → Bool) (value : Tid → Size → Option BlockId) : Program T where
  mem := mem
  level := level.underlying
  queue := .initial blockCount blockIndex value
  writers := fun _ => .outside (.idle none)
  stop := false
  pc := .testStop
  argumentArray := .init
  formatter := .empty
  stream := ⟨[], []⟩
  stopper := .idle

/-- The program runs: no exception has left `consume()`. -/
def alive (p : Program T) : Bool := p.pc.alive

/-- A step of thread `t` inside `enqueue`, with which `write` may return. -/
def enqueued (p : Program T) (t : Tid) (q : ListedQueue Tid Unit (ArgumentArray T)) :
    Program T :=
  { p with
    queue := q
    writers := Function.update p.writers t
      (match q.queue.enq t with
      | .idle (some b) => .outside (.idle (some (.returned b)))
      | _ => .inQueue) }

/-- A step inside `try_dequeue`, with which it may return. -/
def dequeued (p : Program T) (q : ListedQueue Tid Unit (ArgumentArray T)) : Program T :=
  match q.scan () with
  | .idle (some (some array)) => { p with queue := q, argumentArray := array, pc := .format }
  | .idle (some none) => { p with queue := q, pc := .flush }
  | _ => { p with queue := q }

/-- The next step of `consume()`. -/
def consumeStep (spill : Nat) (p : Program T) : Option (Program T) :=
  match p.pc with
  | .testStop => some { p with pc := if p.stop then .finalFlush else .tryDequeue }
  | .tryDequeue =>
      match p.queue.scan () with
      | .idle _ => (p.queue.step (.tryDequeue ())).map fun q => { p with queue := q }
      | _ => (p.queue.step (.next ())).map p.dequeued
  | .format =>
      match CFormatter.format p.mem p.argumentArray p.formatter with
      | .ok text f => some { p with formatter := f, pc := .insert text }
      | .error e f => some { p with formatter := f, pc := .terminated e }
  | .insert text =>
      some { p with stream := Sys.insertText spill text p.stream, pc := .tryDequeue }
  | .flush => some { p with stream := p.stream.flush, pc := .sleep }
  | .sleep => some { p with pc := .testStop }
  | .finalFlush => some { p with stream := p.stream.flush, pc := .exited }
  | .exited | .terminated _ => none

/-- The next step of `stop()`; `join` waits for the thread. -/
def stopStep (p : Program T) : Option (Program T) :=
  match p.stopper with
  | .idle => some { p with stopper := .called }
  | .called => some { p with stop := true, stopper := .stored }
  | .stored => if p.pc = .exited then some { p with stopper := .joined } else none
  | .joined => some { p with stream := p.stream.flush, stopper := .returned }
  | .returned => none

/-- The next step of a thread that calls `write`. -/
def writeStep (p : Program T) : Action T → Option (Program T)
  | .call t c alloc =>
      match p.writers t with
      | .outside (.idle _) =>
          some { p with
            writers := Function.update p.writers t
              (.outside (.ofPrepared (CLogger.prepare alloc p.level c.msg))) }
      | _ => none
  | .addProducer t =>
      match p.writers t with
      | .outside (.offering _) => (p.queue.step (.addProducer t)).map fun q => { p with queue := q }
      | _ => none
  | .noProducer t =>
      match p.writers t with
      | .outside (.offering _) =>
          if t ∈ p.queue.producerListTail then none
          else some { p with
            writers := Function.update p.writers t (.outside (.idle (some (.returned false)))) }
      | _ => none
  | .tryEnqueue t =>
      match p.writers t with
      | .outside (.offering array) =>
          (p.queue.step (.tryEnqueue t array)).map fun q =>
            { p with queue := q, writers := Function.update p.writers t .inQueue }
      | _ => none
  | .enqueue t => (p.queue.step (.enqueue t)).map (p.enqueued t)
  | .tryGet t got => (p.queue.step (.tryGet t got)).map (p.enqueued t)
  | _ => none

def step (p : Program T) (a : Action T) : Option (Program T) :=
  if p.alive then
    match a with
    | .setLevel l => some { p with level := l.underlying }
    | .overwrite ptr str => some { p with mem := Function.update p.mem ptr str }
    | .consume spill => p.consumeStep spill
    | .stop => p.stopStep
    | a => p.writeStep a
  else none

/-- What a step is to an observer, who sees a message in the queue from the moment its
`tailIndex` is stored, and out of it from the moment `headIndex` is fetched. -/
def event (p : Program T) (a : Action T) (p' : Program T) : Event :=
  match a with
  | .setLevel _ | .overwrite _ _ | .addProducer _ | .noProducer _ | .tryEnqueue _ | .tryGet _ _ =>
      .silent
  | .call t c _ => .called t ⟨c.msg, p.mem, p.level⟩
  | .enqueue t =>
      match p.queue.event (.enqueue t) p'.queue with
      | some (.push _ _) => .accepted t
      | _ => .silent
  | .consume _ =>
      match p.pc with
      | .tryDequeue =>
          match p.queue.event (.next ()) p'.queue with
          | some (.claim _ t _) => .dequeued t
          | _ => .silent
      | .format => .formatted p.mem
      | _ => .silent
  | .stop =>
      match p.stopper with
      | .idle => .stopping
      | _ => .silent

end Program

/-- The program, with the record that `Rtlog.History` keeps. -/
def Program.recorded (T : LoggerTraits) :
    Machine (Recorded (Program T) (Hist T)) (Program.Action T) :=
  (⟨Program.step⟩ : Machine (Program T) (Program.Action T)).withHistory
    fun p a p' h => h.add (p.event a p')

end Rtlog
