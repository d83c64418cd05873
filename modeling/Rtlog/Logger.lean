/-
# `Rtlog.Logger` — the producer's side

`CLoggerT` of `rtlog.hpp`.  A call of `write` checks the level (one of the two
overloads does), fills an argument array of its own with `_write`, and offers
the array to the queue.  Only the last of these touches shared state, so a
call is split in two here: `prepare`, which is local to the calling thread
apart from one read of the level, and `tryEnqueue`.  `CLogger.write` is the
two in sequence.

Filling can go wrong in two ways.  `boost::any` can fail to allocate, at any
element: `alloc i` says whether the `i`-th store succeeds.  And `queue_pos` can
reach the end of the array, which the language leaves undefined: that is a
`Fault` of its own, not an exception.  What the `static_assert`s say about it
is `writeAssert`.
-/
import Rtlog.Base.Lanes
import Rtlog.Formatter

namespace Rtlog

variable {T : LoggerTraits}

/-- A producer thread. -/
abbrev Tid := Nat

/-! ## Messages -/

/-- The arguments of one call.  `time` tells the overloads apart. -/
structure Message where
  time : Option (BitVec 64)
  threadId : Value
  level : LogLevel
  position : Ptr
  arg0 : Value
  args : List Value

namespace Message

def timeValue (t : BitVec 64) : Value := ⟨.timePoint, t, rfl⟩
def levelValue (l : LogLevel) : Value := ⟨.logLevel, l, rfl⟩
def positionValue (p : Ptr) : Value := .ofStr p
def endMarker : Value := ⟨.arrayEndMarker, (), rfl⟩

/-- What a call stores before the end marker, in order. -/
def contents (m : Message) : List Value :=
  (m.time.map timeValue).toList ++
    [m.threadId, levelValue m.level, positionValue m.position, m.arg0] ++ m.args

/-- Everything a call stores. -/
def elements (m : Message) : List Value := m.contents ++ [endMarker]

theorem length_elements (m : Message) :
    m.elements.length = (if m.time.isSome then 6 else 5) + m.args.length := by
  unfold elements contents
  cases m.time <;> simp <;> omega

theorem forall_mem_contents {m : Message} {P : Value → Prop} :
    (∀ v ∈ m.contents, P v) ↔
      (∀ t, m.time = some t → P (timeValue t)) ∧ P m.threadId ∧ P (levelValue m.level) ∧
        P (positionValue m.position) ∧ P m.arg0 ∧ ∀ v ∈ m.args, P v := by
  unfold contents
  constructor
  · intro h
    refine ⟨fun t ht => h _ ?_, h _ ?_, h _ ?_, h _ ?_, h _ ?_, fun v hv => h _ ?_⟩
    · simp [ht]
    · simp
    · simp
    · simp
    · simp
    · simp [hv]
  · rintro ⟨htime, hid, hlevel, hpos, harg, hargs⟩ v hv
    simp only [List.mem_append, List.mem_cons, List.not_mem_nil, or_false, Option.mem_toList,
      Option.map_eq_some_iff] at hv
    rcases hv with (⟨t, ht, rfl⟩ | rfl | rfl | rfl | rfl) | hv
    · exact htime t ht
    · exact hid
    · exact hlevel
    · exact hpos
    · exact harg
    · exact hargs v hv

end Message

/-! ## Filling the array -/

/-- A new array, every slot value-initialised. -/
def ArgumentArray.init : ArgumentArray T := ⟨List.replicate T.paramSize .default, by simp⟩

/-- `p` with slot `i` replaced. -/
def ArgumentArray.set (p : ArgumentArray T) (i : Nat) (a : Argument) : ArgumentArray T :=
  ⟨p.slots.set i a, by rw [List.length_set, p.size_eq]⟩

/-- How filling an array can end early. -/
inductive Fault where
  | threw (e : Exn)
  | outOfBounds
  deriving DecidableEq, Repr

/-- The array being filled, and `queue_pos`. -/
structure Filling (T : LoggerTraits) where
  p : ArgumentArray T
  queuePos : Nat

namespace CLogger

/-- `p[queue_pos++] = v0`. -/
def store (alloc : Nat → Bool) (v0 : Value) : EStateM Fault (Filling T) Unit := fun s =>
  if h : s.queuePos < s.p.slots.length then
    match (s.p.slots.get ⟨s.queuePos, h⟩).assign (alloc s.queuePos) v0 with
    | .ok _ a => .ok () ⟨s.p.set s.queuePos a, s.queuePos + 1⟩
    | .error e a => .error (.threw e) ⟨s.p.set s.queuePos a, s.queuePos + 1⟩
  else
    .error .outOfBounds ⟨s.p, s.queuePos + 1⟩

/-- `_write(p, queue_pos, v0, args...)`. -/
def _write (alloc : Nat → Bool) : Value → List Value → EStateM Fault (Filling T) Bool
  | v0, [] => do
      store alloc v0
      return true
  | v0, v1 :: args => do
      store alloc v0
      _write alloc v1 args

/-- What a call has come to when it reaches `try_enqueue`. -/
inductive Prepared (T : LoggerTraits) where
  | filtered
  | full (p : ArgumentArray T)
  | failed (fault : Fault)

def Prepared.ofResult {α : Type} : EStateM.Result Fault (Filling T) α → Prepared T
  | .ok _ s => .full s.p
  | .error fault _ => .failed fault

/-- `write(thread_id, level, position, arg0, args...)`, up to `try_enqueue`. -/
def prepareUntimed (alloc : Nat → Bool) (threshold : UInt32) (m : Message) : Prepared T :=
  if m.level.underlying < threshold then .filtered
  else
    .ofResult <| (do
      let _ ← _write alloc m.threadId []
      let _ ← _write alloc (Message.levelValue m.level) []
      let _ ← _write alloc (Message.positionValue m.position) []
      let _ ← _write alloc m.arg0 m.args
      _write alloc Message.endMarker []) ⟨ArgumentArray.init, 0⟩

/-- `write(time_point, thread_id, level, position, arg0, args...)`, up to
`try_enqueue`.  This overload does not look at the level. -/
def prepareTimed (alloc : Nat → Bool) (t : BitVec 64) (m : Message) : Prepared T :=
  .ofResult <| (do
    let _ ← _write alloc (Message.timeValue t) []
    let _ ← _write alloc m.threadId []
    let _ ← _write alloc (Message.levelValue m.level) []
    let _ ← _write alloc (Message.positionValue m.position) []
    let _ ← _write alloc m.arg0 m.args
    _write alloc Message.endMarker []) ⟨ArgumentArray.init, 0⟩

/-- The overload the arguments select. -/
def prepare (alloc : Nat → Bool) (threshold : UInt32) (m : Message) : Prepared T :=
  match m.time with
  | none => prepareUntimed alloc threshold m
  | some t => prepareTimed alloc t m

end CLogger

/-! ## The compile-time checks -/

/-- Subtraction of `std::size_t`. -/
def sizeSub (a b : Nat) : Nat := (a + 2 ^ 64 - b) % 2 ^ 64

theorem sizeSub_of_le {a b : Nat} (hb : b ≤ a) (ha : a < 2 ^ 64) : sizeSub a b = a - b := by
  unfold sizeSub
  omega

/-- The `static_assert` of the overload a message selects, on `sizeof...(Args)`. -/
def writeAssert (T : LoggerTraits) (m : Message) : Bool :=
  match m.time with
  | none => m.args.length < sizeSub (sizeSub T.paramSize 3) 1
  | some _ => m.args.length ≤ sizeSub (sizeSub T.paramSize 4) 1

/-- A call that compiles. -/
structure Call (T : LoggerTraits) where
  msg : Message
  /-- The `static_assert` of the class. -/
  paramSize_gt : 6 < T.paramSize
  admitted : writeAssert T msg = true

/-- A call of the default logger without trailing arguments. -/
def Call.bare (m : Message) (h : m.args = []) : Call loggerTraits where
  msg := m
  paramSize_gt := by decide
  admitted := by
    unfold writeAssert
    rw [h]
    cases m.time with
    | none => exact (by decide : decide (0 < sizeSub (sizeSub 16 3) 1) = true)
    | some t => exact (by decide : decide (0 ≤ sizeSub (sizeSub 16 4) 1) = true)

theorem Call.fits_bare (m : Message) (h : m.args = []) :
    (Call.bare m h).msg.elements.length ≤ loggerTraits.paramSize := by
  show m.elements.length ≤ 16
  rw [m.length_elements, h, List.length_nil]
  split <;> omega

/-! ## The logger -/

/-- `m_LogLevel` and `m_ArgumentQueue`. -/
structure CLogger (T : LoggerTraits) where
  level : UInt32
  queue : Lanes Tid (ArgumentArray T)

/-- How a call of `write` ends. -/
inductive WriteResult where
  | returned (b : Bool)
  | threw (e : Exn)
  | undefined
  deriving DecidableEq, Repr

namespace CLogger

/-- `CLoggerT(level)`. -/
def init (T : LoggerTraits) (level : LogLevel) : CLogger T := ⟨level.underlying, .empty⟩

/-- `setLevel`. -/
def setLevel (l : LogLevel) (lg : CLogger T) : CLogger T := { lg with level := l.underlying }

/-- `m_ArgumentQueue.try_enqueue(std::move(p))` on thread `t`; `accept` is the
queue's answer. -/
def tryEnqueue (accept : Bool) (t : Tid) (p : ArgumentArray T) (lg : CLogger T) : CLogger T :=
  if accept then { lg with queue := lg.queue.push t p } else lg

/-- One whole call of `write` on thread `t`. -/
def write (alloc : Nat → Bool) (accept : Bool) (t : Tid) (m : Message) (lg : CLogger T) :
    WriteResult × CLogger T :=
  match prepare alloc lg.level m with
  | .filtered => (.returned true, lg)
  | .full p => (.returned accept, lg.tryEnqueue accept t p)
  | .failed (.threw e) => (.threw e, lg)
  | .failed .outOfBounds => (.undefined, lg)

end CLogger

end Rtlog
