/-
# `Rtlog.System` — producers, consumer and `stop()` as one machine

`Consumer.hpp` together with the callers of `write`.  The state is what the
threads share and what each has of its own; one action is one step of one
thread, and every decision that is not the program's is in the action:

    setLevel l          some thread changes the threshold
    overwrite p s       a caller changes a buffer it passed, or will pass
    call t c alloc      thread `t` calls `write`, up to `try_enqueue`
    enqueue t accept    its `try_enqueue`, and the return
    consume ch          the next step of `consume()`
    stop                the next step of `stop()`

The queue is one FIFO lane per producer.  `try_enqueue` may be refused at any
time, and `try_dequeue` may say that nothing is there at any time; if it
succeeds it takes the head of a lane that has one (`Choice.lane`).  Inserting
into the stream writes to its buffer and may spill any part of it to the file
(`Choice.spill`); nothing fails on the stream.  An exception that leaves
`consume()` ends the program, so after it no step is enabled at all.

`Sys.step` computes, and `Sys.event` says what an observer of the run would
write down.  `Sys.Step` lists what a step can do, one constructor a transition
with its event, and `step_eq_some_iff` says that they are the same.  Invariants
are proved from the last.
-/
import Rtlog.Base.Machine
import Rtlog.Logger

namespace Rtlog

variable {T : LoggerTraits}

/-! ## The consumer's side -/

/-- `std::ofstream`: what is in the file, and what is still buffered. -/
structure Stream where
  file : List Char
  buffer : List Char
  deriving DecidableEq, Repr

namespace Stream

/-- `m_Stream << s`, with `spill` characters leaving the buffer. -/
def insert (spill : Nat) (s : List Char) (st : Stream) : Stream :=
  ⟨st.file ++ (st.buffer ++ s).take spill, (st.buffer ++ s).drop spill⟩

/-- `m_Stream.flush()`, also the first half of `m_Stream.close()`. -/
def flush (st : Stream) : Stream := ⟨st.file ++ st.buffer, []⟩

/-- The file followed by the buffer. -/
def contents (st : Stream) : List Char := st.file ++ st.buffer

@[simp] theorem contents_insert (spill : Nat) (s : List Char) (st : Stream) :
    (st.insert spill s).contents = st.contents ++ s := by
  simp [contents, insert]

@[simp] theorem contents_flush (st : Stream) : st.flush.contents = st.contents := by
  simp [contents, flush]

end Stream

/-- Where the thread is in `consume()`. -/
inductive ConsumerPc where
  /-- `while (!m_Stop.load())`; also a thread that has not run yet. -/
  | testStop
  /-- `while (m_Queue.try_dequeue(m_ArgumentArray))` -/
  | tryDequeue
  /-- `p = m_Formatter.format(m_ArgumentArray)` -/
  | format
  /-- `if (p) m_Stream << p` -/
  | insert (p : Option (List Char))
  | flush
  | sleep
  /-- The `flush` after the loop. -/
  | finalFlush
  | exited
  /-- An exception has left `consume()`. -/
  | terminated (e : Exn)
  deriving DecidableEq, Repr

/-- No exception has left `consume()`. -/
def ConsumerPc.alive : ConsumerPc → Bool
  | .terminated _ => false
  | _ => true

/-- The consumer is between a dequeue and the insertion into the stream. -/
def ConsumerPc.inHand : ConsumerPc → Bool
  | .format | .insert _ => true
  | _ => false

/-- Where the thread that stops the consumer is: not there yet, in `stop()`
before the store, before the join, before the close, or out again. -/
inductive StopperPc where
  | idle
  | called
  | stored
  | joined
  | returned
  deriving DecidableEq, Repr

/-- A producer: between calls (with how the last one ended), at `try_enqueue`
with its array, or past an access outside the array. -/
inductive Producer (T : LoggerTraits) where
  | idle (last : Option WriteResult)
  | offering (p : ArgumentArray T)
  | undefined

/-- What the local part of a call leaves its thread at. -/
def Producer.ofPrepared : CLogger.Prepared T → Producer T
  | .filtered => .idle (some (.returned true))
  | .full p => .offering p
  | .failed (.threw e) => .idle (some (.threw e))
  | .failed .outOfBounds => .undefined

theorem Producer.ofPrepared_eq_offering {r : CLogger.Prepared T} {p : ArgumentArray T} :
    Producer.ofPrepared r = .offering p ↔ r = .full p := by
  constructor
  · intro h
    cases r with
    | filtered => cases h
    | full q => cases h; rfl
    | failed fault => cases fault <;> cases h
  · rintro rfl
    rfl

/-! ## The machine -/

structure Sys (T : LoggerTraits) where
  mem : Mem
  logger : CLogger T
  producers : Tid → Producer T
  /-- `m_Stop`. -/
  stop : Bool
  pc : ConsumerPc
  argumentArray : ArgumentArray T
  formatter : CFormatter T
  stream : Stream
  stopper : StopperPc

/-- What `try_dequeue` finds and how much an insertion spills. -/
structure Choice where
  lane : Option Tid
  spill : Nat

inductive Action (T : LoggerTraits) where
  | setLevel (l : LogLevel)
  | overwrite (p : Ptr) (s : CString)
  | call (t : Tid) (c : Call T) (alloc : Nat → Bool)
  | enqueue (t : Tid) (accept : Bool)
  | consume (ch : Choice)
  | stop

namespace Sys

/-- A logger, and a consumer constructed on its queue. -/
def init (T : LoggerTraits) (mem : Mem) (level : LogLevel) : Sys T where
  mem := mem
  logger := .init T level
  producers := fun _ => .idle none
  stop := false
  pc := .testStop
  argumentArray := .init
  formatter := .empty
  stream := ⟨[], []⟩
  stopper := .idle

/-- The program runs: no exception has left `consume()`. -/
def alive (s : Sys T) : Bool := s.pc.alive

/-- `m_Stream << p` if there is a `p`. -/
def insertText (spill : Nat) (p : Option (List Char)) (st : Stream) : Stream :=
  match p with
  | some p => st.insert spill (beforeNul p)
  | none => st

/-- The next step of `consume()`. -/
def consumeStep (ch : Choice) (s : Sys T) : Option (Sys T) :=
  match s.pc with
  | .testStop => some { s with pc := if s.stop then .finalFlush else .tryDequeue }
  | .tryDequeue =>
      match ch.lane with
      | none => some { s with pc := .flush }
      | some t =>
          match s.logger.queue.pop? t with
          | none => none
          | some (array, queue) =>
              some { s with
                logger := { s.logger with queue := queue }
                argumentArray := array
                pc := .format }
  | .format =>
      match CFormatter.format s.mem s.argumentArray s.formatter with
      | .ok p f => some { s with formatter := f, pc := .insert p }
      | .error e f => some { s with formatter := f, pc := .terminated e }
  | .insert p => some { s with stream := insertText ch.spill p s.stream, pc := .tryDequeue }
  | .flush => some { s with stream := s.stream.flush, pc := .sleep }
  | .sleep => some { s with pc := .testStop }
  | .finalFlush => some { s with stream := s.stream.flush, pc := .exited }
  | .exited | .terminated _ => none

/-- The next step of `stop()`; `join` waits for the thread. -/
def stopStep (s : Sys T) : Option (Sys T) :=
  match s.stopper with
  | .idle => some { s with stopper := .called }
  | .called => some { s with stop := true, stopper := .stored }
  | .stored => if s.pc = .exited then some { s with stopper := .joined } else none
  | .joined => some { s with stream := s.stream.flush, stopper := .returned }
  | .returned => none

def step (s : Sys T) (a : Action T) : Option (Sys T) :=
  if s.alive then
    match a with
    | .setLevel l => some { s with logger := s.logger.setLevel l }
    | .overwrite p str => some { s with mem := Function.update s.mem p str }
    | .call t c alloc =>
        match s.producers t with
        | .idle _ =>
            some { s with
              producers := Function.update s.producers t
                (.ofPrepared (CLogger.prepare alloc s.logger.level c.msg)) }
        | _ => none
    | .enqueue t accept =>
        match s.producers t with
        | .offering p =>
            some { s with
              logger := s.logger.tryEnqueue accept t p
              producers := Function.update s.producers t (.idle (some (.returned accept))) }
        | _ => none
    | .consume ch => s.consumeStep ch
    | .stop => s.stopStep
  else none

end Sys

/-- The program. -/
def machine (T : LoggerTraits) : Machine (Sys T) (Action T) := ⟨Sys.step⟩

/-! ## Events -/

/-- A call that has read the level: its message, and what memory and level were. -/
structure CallRecord where
  msg : Message
  mem : Mem
  threshold : UInt32

/-- What a step is to an observer. -/
inductive Event where
  | silent
  | called (t : Tid) (c : CallRecord)
  /-- `try_enqueue` on thread `t` succeeded. -/
  | accepted (t : Tid)
  /-- `try_dequeue` took a message of thread `t`. -/
  | dequeued (t : Tid)
  /-- `format` was called with this memory. -/
  | formatted (mem : Mem)
  /-- `stop()` was called. -/
  | stopping

namespace Sys

def event (s : Sys T) : Action T → Event
  | .call t c _ => .called t ⟨c.msg, s.mem, s.logger.level⟩
  | .enqueue t true => .accepted t
  | .consume ch =>
      match s.pc, ch.lane with
      | .tryDequeue, some t => .dequeued t
      | .format, _ => .formatted s.mem
      | _, _ => .silent
  | .stop =>
      match s.stopper with
      | .idle => .stopping
      | _ => .silent
  | .setLevel _ | .overwrite _ _ | .enqueue _ false => .silent

/-! ## What a step can do -/

inductive Step : Sys T → Action T → Event → Sys T → Prop
  | setLevel {s : Sys T} (l : LogLevel) (halive : s.alive = true) :
      Step s (.setLevel l) .silent { s with logger := s.logger.setLevel l }
  | overwrite {s : Sys T} (p : Ptr) (str : CString) (halive : s.alive = true) :
      Step s (.overwrite p str) .silent { s with mem := Function.update s.mem p str }
  | call {s : Sys T} {last : Option WriteResult} (t : Tid) (c : Call T) (alloc : Nat → Bool)
      (halive : s.alive = true) (ht : s.producers t = .idle last) :
      Step s (.call t c alloc) (.called t ⟨c.msg, s.mem, s.logger.level⟩) { s with
        producers := Function.update s.producers t
          (.ofPrepared (CLogger.prepare alloc s.logger.level c.msg)) }
  | refuse {s : Sys T} {p : ArgumentArray T} (t : Tid)
      (halive : s.alive = true) (ht : s.producers t = .offering p) :
      Step s (.enqueue t false) .silent { s with
        producers := Function.update s.producers t (.idle (some (.returned false))) }
  | accept {s : Sys T} {p : ArgumentArray T} (t : Tid)
      (halive : s.alive = true) (ht : s.producers t = .offering p) :
      Step s (.enqueue t true) (.accepted t) { s with
        logger := { s.logger with queue := s.logger.queue.push t p }
        producers := Function.update s.producers t (.idle (some (.returned true))) }
  | testStop {s : Sys T} (ch : Choice) (hpc : s.pc = .testStop) :
      Step s (.consume ch) .silent { s with pc := if s.stop then .finalFlush else .tryDequeue }
  | dequeueNone {s : Sys T} (ch : Choice) (hpc : s.pc = .tryDequeue) (hl : ch.lane = none) :
      Step s (.consume ch) .silent { s with pc := .flush }
  | dequeue {s : Sys T} {t : Tid} {array : ArgumentArray T} {rest : List (ArgumentArray T)}
      (ch : Choice) (hpc : s.pc = .tryDequeue) (hl : ch.lane = some t)
      (hq : s.logger.queue t = array :: rest) :
      Step s (.consume ch) (.dequeued t) { s with
        logger := { s.logger with queue := Function.update s.logger.queue t rest }
        argumentArray := array
        pc := .format }
  | format {s : Sys T} {p : Option (List Char)} {f : CFormatter T} (ch : Choice)
      (hpc : s.pc = .format)
      (hf : CFormatter.format s.mem s.argumentArray s.formatter = .ok p f) :
      Step s (.consume ch) (.formatted s.mem) { s with formatter := f, pc := .insert p }
  | formatThrow {s : Sys T} {e : Exn} {f : CFormatter T} (ch : Choice) (hpc : s.pc = .format)
      (hf : CFormatter.format s.mem s.argumentArray s.formatter = .error e f) :
      Step s (.consume ch) (.formatted s.mem) { s with formatter := f, pc := .terminated e }
  | insert {s : Sys T} {p : Option (List Char)} (ch : Choice) (hpc : s.pc = .insert p) :
      Step s (.consume ch) .silent
        { s with stream := insertText ch.spill p s.stream, pc := .tryDequeue }
  | flush {s : Sys T} (ch : Choice) (hpc : s.pc = .flush) :
      Step s (.consume ch) .silent { s with stream := s.stream.flush, pc := .sleep }
  | sleep {s : Sys T} (ch : Choice) (hpc : s.pc = .sleep) :
      Step s (.consume ch) .silent { s with pc := .testStop }
  | finalFlush {s : Sys T} (ch : Choice) (hpc : s.pc = .finalFlush) :
      Step s (.consume ch) .silent { s with stream := s.stream.flush, pc := .exited }
  | stopCall {s : Sys T} (halive : s.alive = true) (hst : s.stopper = .idle) :
      Step s .stop .stopping { s with stopper := .called }
  | stopStore {s : Sys T} (halive : s.alive = true) (hst : s.stopper = .called) :
      Step s .stop .silent { s with stop := true, stopper := .stored }
  | stopJoin {s : Sys T} (hpc : s.pc = .exited) (hst : s.stopper = .stored) :
      Step s .stop .silent { s with stopper := .joined }
  | stopClose {s : Sys T} (halive : s.alive = true) (hst : s.stopper = .joined) :
      Step s .stop .silent { s with stream := s.stream.flush, stopper := .returned }

theorem alive_of_pc {s : Sys T} {c : ConsumerPc} (hpc : s.pc = c) (h : c.alive = true) :
    s.alive = true := by
  rw [alive, hpc, h]

theorem Step.of_consumeStep {s s' : Sys T} {ch : Choice} (h : s.consumeStep ch = some s') :
    Step s (.consume ch) (s.event (.consume ch)) s' := by
  unfold consumeStep at h
  simp only [event]
  split at h
  · next hpc => cases h; simpa only [hpc] using .testStop ch hpc
  · next hpc =>
      simp only [hpc]
      split at h
      · next hl => cases h; simpa only [hl] using .dequeueNone ch hpc hl
      · next t hl =>
          simp only [hl]
          split at h
          · cases h
          · next array queue hq =>
              obtain ⟨rest, hrest, rfl⟩ := Lanes.pop?_eq_some.mp hq
              cases h
              exact .dequeue ch hpc hl hrest
  · next hpc =>
      simp only [hpc]
      split at h
      · next hf => cases h; exact .format ch hpc hf
      · next hf => cases h; exact .formatThrow ch hpc hf
  · next hpc => cases h; simpa only [hpc] using .insert ch hpc
  · next hpc => cases h; simpa only [hpc] using .flush ch hpc
  · next hpc => cases h; simpa only [hpc] using .sleep ch hpc
  · next hpc => cases h; simpa only [hpc] using .finalFlush ch hpc
  · cases h
  · cases h

theorem Step.of_stopStep {s s' : Sys T} (halive : s.alive = true) (h : s.stopStep = some s') :
    Step s .stop (s.event .stop) s' := by
  unfold stopStep at h
  simp only [event]
  split at h
  · next hst => cases h; simpa only [hst] using .stopCall halive hst
  · next hst => cases h; simpa only [hst] using .stopStore halive hst
  · next hst =>
      split at h
      · next hpc => cases h; simpa only [hst] using .stopJoin hpc hst
      · cases h
  · next hst => cases h; simpa only [hst] using .stopClose halive hst
  · cases h

theorem Step.of_step {s s' : Sys T} {a : Action T} (h : s.step a = some s') :
    Step s a (s.event a) s' := by
  unfold step at h
  split at h
  · next halive =>
      cases a with
      | setLevel l => cases h; exact .setLevel l halive
      | overwrite p str => cases h; exact .overwrite p str halive
      | call t c alloc =>
          dsimp only at h
          split at h
          · next ht => cases h; exact .call t c alloc halive ht
          · cases h
      | enqueue t accept =>
          dsimp only at h
          split at h
          · next ht =>
              cases h
              cases accept with
              | false => exact .refuse t halive ht
              | true => exact .accept t halive ht
          · cases h
      | consume ch => exact .of_consumeStep h
      | stop => exact .of_stopStep halive h
  · cases h

theorem step_eq_some_iff {s s' : Sys T} {a : Action T} {ev : Event} :
    s.step a = some s' ∧ s.event a = ev ↔ Step s a ev s' := by
  refine ⟨fun ⟨h, he⟩ => he ▸ .of_step h, fun h => ?_⟩
  cases h with
  | setLevel l halive => simp [step, event, halive]
  | overwrite p str halive => simp [step, event, halive]
  | call t c alloc halive ht => simp [step, event, halive, ht]
  | refuse t halive ht => simp [step, event, halive, ht, CLogger.tryEnqueue]
  | accept t halive ht => simp [step, event, halive, ht, CLogger.tryEnqueue]
  | testStop ch hpc =>
      simp [step, event, consumeStep, alive_of_pc hpc rfl, hpc]
  | dequeueNone ch hpc hl =>
      simp [step, event, consumeStep, alive_of_pc hpc rfl, hpc, hl]
  | dequeue ch hpc hl hq =>
      have hpop := Lanes.pop?_eq_some.mpr ⟨_, hq, rfl⟩
      simp [step, event, consumeStep, alive_of_pc hpc rfl, hpc, hl, hpop]
  | format ch hpc hf =>
      simp [step, event, consumeStep, alive_of_pc hpc rfl, hpc, hf]
  | formatThrow ch hpc hf =>
      simp [step, event, consumeStep, alive_of_pc hpc rfl, hpc, hf]
  | insert ch hpc =>
      simp [step, event, consumeStep, alive_of_pc hpc rfl, hpc]
  | flush ch hpc =>
      simp [step, event, consumeStep, alive_of_pc hpc rfl, hpc]
  | sleep ch hpc =>
      simp [step, event, consumeStep, alive_of_pc hpc rfl, hpc]
  | finalFlush ch hpc =>
      simp [step, event, consumeStep, alive_of_pc hpc rfl, hpc]
  | stopCall halive hst => simp [step, event, stopStep, halive, hst]
  | stopStore halive hst => simp [step, event, stopStep, halive, hst]
  | stopJoin hpc hst =>
      simp [step, event, stopStep, alive_of_pc hpc rfl, hpc, hst]
  | stopClose halive hst => simp [step, event, stopStep, halive, hst]

/-- A run, by its first step. -/
theorem Step.run_cons {s s' t : Sys T} {a : Action T} {ev : Event} {as : List (Action T)}
    (hs : Step s a ev s') (hrun : (machine T).run s' as = some t) :
    (machine T).run s (a :: as) = some t :=
  (Machine.run_cons_eq_some _).mpr ⟨s', (step_eq_some_iff.mpr hs).1, hrun⟩

end Sys

end Rtlog
