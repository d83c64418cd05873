/-
# `Rtlog.Draining` — how long `consume()` goes on after the flag is set

Inside the draining loop nothing looks at `m_Stop`, so after the store the
consumer keeps dequeuing as long as it finds something.  What it takes then was
in the queue, or is put there while it drains: the queue's size is a balance
that each accepted call raises by one and each dequeue lowers by one
(`dequeues_le`).  Outside the loop it takes nothing at all
(`dequeues_of_leaving`).  Its own steps have a balance too, the number of them to
the end of `consume()` if nothing more is found (`ConsumerPc.rank`); a dequeue
raises it by two (`consumerSteps_le`).

All three are bounds by what producers do afterwards, and there is none without:
from a state with the flag set and the queue empty, producers can hand the
consumer any number of messages (`exists_run_rounds`).
-/
import Rtlog.FileContent

namespace Rtlog

variable {T : LoggerTraits}

/-! ## What is counted -/

def Event.isAccepted : Event → Bool
  | .accepted _ => true
  | _ => false

def Event.isDequeued : Event → Bool
  | .dequeued _ => true
  | _ => false

def Action.isConsume : Action T → Bool
  | .consume _ => true
  | _ => false

namespace Sys

/-- The messages producers enqueue in the run of `as`. -/
def accepts : Sys T → List (Action T) → Nat :=
  (machine T).total fun s a => (s.event a).isAccepted.toNat

/-- The messages the consumer dequeues in it. -/
def dequeues : Sys T → List (Action T) → Nat :=
  (machine T).total fun s a => (s.event a).isDequeued.toNat

/-- The steps the consumer takes in it. -/
def consumerSteps : Sys T → List (Action T) → Nat :=
  (machine T).total fun _ a => a.isConsume.toNat

/-! ## The balances -/

/-- An accepted call adds one item, a dequeue takes one out. -/
theorem size_step {s s' : Sys T} {a : Action T} {n : Nat} (hn : s.logger.queue.HasSize n)
    (hs : (machine T).step s a = some s') : ∃ n', s'.logger.queue.HasSize n' ∧
      (s.event a).isDequeued.toNat + n' ≤ (s.event a).isAccepted.toNat + n := by
  have hs := Step.of_step hs
  generalize s.event a = ev at hs ⊢
  cases hs with
  | accept t _ _ =>
      refine ⟨n + 1, hn.push t _, ?_⟩
      simp only [Event.isDequeued, Event.isAccepted, Bool.toNat_false, Bool.toNat_true]
      omega
  | dequeue ch _ _ hq =>
      obtain ⟨k, rfl, hk⟩ := hn.pop hq
      refine ⟨k, hk, ?_⟩
      simp only [Event.isDequeued, Event.isAccepted, Bool.toNat_false, Bool.toNat_true]
      omega
  | _ => exact ⟨n, hn, Nat.le_refl _⟩

/-- Each message dequeued was in the queue or was put there. -/
theorem dequeues_le {as : List (Action T)} {s s' : Sys T} {n : Nat}
    (hrun : (machine T).run s as = some s') (hn : s.logger.queue.HasSize n) :
    s.dequeues as ≤ n + s.accepts as := by
  obtain ⟨n', -, h⟩ := Machine.amortized (fun _ _ _ _ => size_step) hn hrun
  show (machine T).total _ s as ≤ n + (machine T).total _ s as
  omega

/-- A reachable queue is finite. -/
theorem exists_hasSize {mem : Mem} {level : LogLevel} {as : List (Action T)} {s : Sys T}
    (hrun : (machine T).run (.init T mem level) as = some s) :
    ∃ n, s.logger.queue.HasSize n := by
  refine Machine.run_invariant (I := fun s => ∃ n, s.logger.queue.HasSize n) ?_
    ⟨0, Lanes.hasSize_empty⟩ hrun
  rintro s a s' ⟨n, hn⟩ hs
  obtain ⟨n', hn', -⟩ := size_step hn hs
  exact ⟨n', hn'⟩

/-- A consumer that is outside the loop when the flag is set takes nothing. -/
theorem dequeues_of_leaving {as : List (Action T)} {s s' : Sys T}
    (hrun : (machine T).run s as = some s') (hl : s.Leaving) : s.dequeues as = 0 := by
  induction as generalizing s with
  | nil => rfl
  | cons a as ih =>
      obtain ⟨s₁, hs, hrun⟩ := (Machine.run_cons_eq_some _).mp hrun
      have hev := Step.of_step hs
      rw [dequeues, Machine.total_cons hs]
      show _ + s₁.dequeues as = 0
      rw [ih hrun (leaving_step hl hev), Nat.add_zero]
      generalize s.event a = ev at hev ⊢
      cases hev with
      | dequeue ch hpc _ _ =>
          have hdr := hl.2
          rw [hpc] at hdr
          cases hdr
      | _ => rfl

end Sys

/-- The steps to the end of `consume()` once the flag is set, if nothing more is
found in the queue. -/
def ConsumerPc.rank : ConsumerPc → Nat
  | .testStop => 2
  | .tryDequeue => 5
  | .format => 7
  | .insert _ => 6
  | .flush => 4
  | .sleep => 3
  | .finalFlush => 1
  | .exited | .terminated _ => 0

theorem ConsumerPc.rank_le (pc : ConsumerPc) : pc.rank ≤ 7 := by
  cases pc <;> exact Nat.le_of_ble_eq_true rfl

namespace Sys

/-- Every step of the consumer lowers the rank, but a dequeue, which raises it by
two: format, insert, and back at the queue. -/
theorem rank_step {s s' : Sys T} {a : Action T} {ev : Event} (hstop : s.stop = true)
    (hs : Step s a ev s') : s'.stop = true ∧
      a.isConsume.toNat + s'.pc.rank ≤ 3 * ev.isDequeued.toNat + s.pc.rank := by
  cases hs with
  | testStop ch hpc =>
      refine ⟨hstop, ?_⟩
      rw [hpc, hstop]
      exact Nat.le_refl _
  | dequeueNone ch hpc _ | dequeue ch hpc _ _ | format ch hpc _ | insert ch hpc | flush ch hpc
  | sleep ch hpc | finalFlush ch hpc => exact ⟨hstop, by rw [hpc]; exact Nat.le_refl _⟩
  | formatThrow ch hpc _ => exact ⟨hstop, by rw [hpc]; exact Nat.le_of_ble_eq_true rfl⟩
  | stopStore _ _ => exact ⟨rfl, by simp [Action.isConsume]⟩
  | _ => exact ⟨hstop, by simp [Action.isConsume]⟩

theorem consumerSteps_le {as : List (Action T)} {s s' : Sys T}
    (hrun : (machine T).run s as = some s') (hstop : s.stop = true) :
    s.consumerSteps as + s'.pc.rank ≤ 3 * s.dequeues as + s.pc.rank := by
  have hstep : ∀ (s : Sys T) (a : Action T) (s' : Sys T) (n : Nat),
      s.stop = true ∧ s.pc.rank = n → (machine T).step s a = some s' →
        ∃ n', (s'.stop = true ∧ s'.pc.rank = n') ∧
          a.isConsume.toNat + n' ≤ 3 * (s.event a).isDequeued.toNat + n := by
    rintro s a s' n ⟨hstop, rfl⟩ hs
    obtain ⟨hstop', hrank⟩ := rank_step hstop (Step.of_step hs)
    exact ⟨_, ⟨hstop', rfl⟩, hrank⟩
  obtain ⟨n', ⟨-, rfl⟩, h⟩ := Machine.amortized hstep ⟨hstop, rfl⟩ hrun
  rw [Machine.total_mul] at h
  exact h

/-- The consumer dequeues no more than the queue holds when the flag is set and
producers add to it afterwards, nothing if it is outside its loop by then, and it
takes no more than three steps a message and seven. -/
theorem dequeues_after_stop {mem : Mem} {level : LogLevel} {pre : List (Action T)} {s : Sys T}
    (hrun : (machine T).run (.init T mem level) pre = some s) (hstop : s.stop = true) :
    ∃ n, s.logger.queue.HasSize n ∧
      ∀ (as : List (Action T)) (s' : Sys T), (machine T).run s as = some s' →
        s.dequeues as ≤ n + s.accepts as ∧
        (s.pc.draining = false → s.dequeues as = 0) ∧
        s.consumerSteps as ≤ 3 * s.dequeues as + 7 := by
  obtain ⟨n, hn⟩ := exists_hasSize hrun
  refine ⟨n, hn, ?_⟩
  intro as s' hrun'
  refine ⟨dequeues_le hrun' hn, fun hdr => dequeues_of_leaving hrun' ⟨hstop, hdr⟩, ?_⟩
  have hsteps := consumerSteps_le hrun' hstop
  have hrank := s.pc.rank_le
  omega

/-! ## Producers that keep going -/

/-- The run of `as` from `s` takes `k` messages and ends in `t`. -/
def Takes (s : Sys T) (as : List (Action T)) (k : Nat) (t : Sys T) : Prop :=
  (machine T).run s as = some t ∧ s.dequeues as = k

theorem Takes.nil (s : Sys T) : s.Takes [] 0 s := ⟨rfl, rfl⟩

theorem Takes.cons {s s' t : Sys T} {a : Action T} {ev : Event} {as : List (Action T)} {k : Nat}
    (hs : Step s a ev s') (h : s'.Takes as k t) :
    s.Takes (a :: as) (ev.isDequeued.toNat + k) t := by
  obtain ⟨hrun, rfl⟩ := h
  refine ⟨hs.run_cons hrun, ?_⟩
  obtain ⟨hstep, rfl⟩ := step_eq_some_iff.mpr hs
  exact Machine.total_cons hstep

theorem Takes.append {s t u : Sys T} {as bs : List (Action T)} {k l : Nat} (h : s.Takes as k t)
    (h' : t.Takes bs l u) : s.Takes (as ++ bs) (k + l) u := by
  obtain ⟨hrun, rfl⟩ := h
  obtain ⟨hrun', rfl⟩ := h'
  refine ⟨?_, Machine.total_append hrun⟩
  rw [Machine.run_append, hrun]
  exact hrun'

/-- The flag is set, the consumer is about to look at the queue, and thread 0 has
nothing in it and may call. -/
structure Ready (mem : Mem) (s : Sys T) : Prop where
  mem_eq : s.mem = mem
  stop : s.stop = true
  pc : s.pc = .tryDequeue
  idle : ∃ last, s.producers 0 = .idle last
  lane : s.logger.queue 0 = []
  level : s.logger.level = LogLevel.info.underlying

/-- Thread 0 enqueues a message and the consumer writes it. -/
def round (c : Call T) : List (Action T) :=
  [.call 0 c fun _ => true, .enqueue 0 true,
    .consume ⟨some 0, 0⟩, .consume ⟨none, 0⟩, .consume ⟨none, 0⟩]

section Rounds

variable {mem : Mem} {c : Call T} (fits : c.msg.elements.length ≤ T.paramSize)
  (hF : c.msg.Formats T mem)

include fits hF

/-- After a round the next one can follow. -/
theorem Ready.exists_round {s : Sys T} (hr : s.Ready mem) :
    ∃ s', s.Takes (round c) 1 s' ∧ s'.Ready mem := by
  obtain ⟨last, hidle⟩ := hr.idle
  have halive : s.alive = true := alive_of_pc hr.pc rfl
  let p : ArgumentArray T := .ofValues c.msg.elements fits
  have hoffer : Function.update s.producers 0
      (.ofPrepared (CLogger.prepare (fun _ => true) s.logger.level c.msg)) 0 = .offering p := by
    have hprep : CLogger.prepare (fun _ => true) LogLevel.info.underlying c.msg = .full p :=
      CLogger.prepare_of_fits c.msg UInt32.zero_le fits
    rw [Function.update_self, hr.level, hprep]
    rfl
  have hlane : s.logger.queue.push 0 p 0 = [p] := by
    rw [Lanes.push_same, hr.lane]
    rfl
  obtain ⟨f', hf', -⟩ := format_message fits hF.1 mem hF.2 s.formatter
  rw [← hr.mem_eq] at hf'
  have hidle' : ∃ last', Function.update (Function.update s.producers 0
      (.ofPrepared (CLogger.prepare (fun _ => true) s.logger.level c.msg))) 0
        (.idle (some (.returned true))) 0 = .idle last' := ⟨_, Function.update_self _ _ _⟩
  have hlane' : Function.update (s.logger.queue.push 0 p) 0 [] 0 = [] :=
    Function.update_self _ _ _
  refine ⟨_, .cons (.call 0 c _ halive hidle) <| .cons (.accept 0 halive hoffer) <|
    .cons (.dequeue _ hr.pc rfl hlane) <| .cons (.format _ rfl hf') <|
    .cons (.insert _ rfl) (.nil _), ?_⟩
  exact {
    mem_eq := hr.mem_eq
    stop := hr.stop
    pc := rfl
    idle := hidle'
    lane := hlane'
    level := hr.level }

theorem Ready.exists_rounds {s : Sys T} (hr : s.Ready mem) (k : Nat) :
    ∃ s', s.Takes (List.replicate k (round c)).flatten k s' ∧ s'.Ready mem := by
  induction k generalizing s with
  | zero => exact ⟨s, .nil s, hr⟩
  | succ k ih =>
      obtain ⟨s₁, htakes, hr₁⟩ := hr.exists_round fits hF
      obtain ⟨s', hrest, hr'⟩ := ih hr₁
      refine ⟨s', ?_, hr'⟩
      have hall := htakes.append hrest
      rw [Nat.add_comm] at hall
      exact hall

end Rounds

/-- The consumer enters its loop, and then the flag is set. -/
def stopInLoop : List (Action T) := [.consume ⟨none, 0⟩, .stop, .stop]

theorem exists_ready (T : LoggerTraits) (mem : Mem) :
    ∃ s, (machine T).run (.init T mem .info) stopInLoop = some s ∧ s.Ready mem :=
  ⟨_, rfl, rfl, rfl, rfl, ⟨_, rfl⟩, rfl, rfl⟩

end Sys

/-- Two messages that are enqueued after the flag is set are both taken. -/
theorem Sys.dequeues_after_stop_rounds : ∃ s s' : Sys loggerTraits, ∃ as,
    (machine loggerTraits).run (.init _ .blank .info) Sys.stopInLoop = some s ∧
    (machine loggerTraits).run s as = some s' ∧ s.dequeues as = 2 ∧ s.consumerSteps as ≤ 13 := by
  obtain ⟨s, hrun, hr⟩ := Sys.exists_ready loggerTraits .blank
  obtain ⟨s', ⟨hrun', htwo⟩, -⟩ := hr.exists_rounds (fits_charCall 'x')
    (formats_charCall 'x') 2
  obtain ⟨n, -, hbound⟩ := Sys.dequeues_after_stop hrun hr.stop
  obtain ⟨-, -, hsteps⟩ := hbound _ s' hrun'
  rw [htwo] at hsteps
  exact ⟨s, s', _, hrun, hrun', htwo, hsteps⟩

/-- No quantity that is fixed when the flag is set bounds what is still taken. -/
theorem Sys.not_dequeues_bounded :
    ¬ ∃ bound : Sys loggerTraits → Nat,
      ∀ (mem : Mem) (level : LogLevel) (pre : List (Action loggerTraits)) (s : Sys loggerTraits),
        (machine loggerTraits).run (.init _ mem level) pre = some s → s.stop = true →
          ∀ (as : List (Action loggerTraits)) (s' : Sys loggerTraits),
            (machine loggerTraits).run s as = some s' → s.dequeues as ≤ bound s := by
  rintro ⟨bound, h⟩
  obtain ⟨s, hrun, hr⟩ := Sys.exists_ready loggerTraits .blank
  obtain ⟨s', ⟨hrun', hmany⟩, -⟩ := hr.exists_rounds (fits_charCall 'x')
    (formats_charCall 'x') (bound s + 1)
  have hle := h .blank .info _ s hrun hr.stop _ s' hrun'
  rw [hmany] at hle
  exact absurd hle (Nat.not_succ_le_self _)

end Rtlog
