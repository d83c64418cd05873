/-
# `Rtlog.Teardown` — shutting a consumer down, by any sequence of calls

`stop()` exists twice and is virtual in neither class: through the base it only
stores the flag, through `CLogConsumerSingleFileT` it also joins the thread and
closes the file.  There is no destructor but the implicit one, which destroys the
members last to first: the stream, and then the thread's handle.  The owner's
state is where it is in all this, and two steps of it can go wrong:

    join on a handle that is not joinable       throws (`OwnerPc.threw`)
    destroying a handle that is joinable        ends the program (`OwnerPc.terminated`)

`Sys` has a `stop()` of its own, called once.  An owner that makes one direct
call, and any calls through the base before and after it, is answered step by
step by that one (`Mirrors`): the first call of either kind is where the flag is
stored, and the rest of the direct call follows.  Without a direct call the
destructor meets a joinable handle, and a second direct call joins again, so one
is the only number that works (`shutsDown_iff`).
-/
import Rtlog.System

namespace Rtlog

variable {T : LoggerTraits}

/-! ## The owner -/

/-- The class through which `stop()` is called. -/
inductive StopCall where
  | singleFile
  | base
  deriving DecidableEq, Repr

/-- Where the thread that owns the consumer is. -/
inductive OwnerPc where
  /-- Between two calls, or about to destroy the consumer. -/
  | between
  /-- In `CLogConsumerSingleFileT::stop`, before the join. -/
  | stored
  /-- In it, before the close. -/
  | joined
  /-- In the destructor: `m_Stream` is destroyed, `m_ConsumerThread` is next. -/
  | streamGone
  | destroyed
  /-- `join` has thrown out of `stop()`. -/
  | threw
  /-- A joinable handle was destroyed. -/
  | terminated
  deriving DecidableEq, Repr

/-- The system with an owner in place of its own `stop()`. -/
structure Shut (T : LoggerTraits) where
  sys : Sys T
  /-- `m_ConsumerThread` is joinable. -/
  joinable : Bool
  /-- `m_Stream` is closed. -/
  closed : Bool
  /-- The calls still to be made before the destruction. -/
  calls : List StopCall
  owner : OwnerPc

inductive ShutAction (T : LoggerTraits) where
  | owner
  /-- A step of another thread. -/
  | other (a : Action T)

namespace Shut

/-- A consumer that has been constructed, to be stopped by `calls` and destroyed. -/
def init (T : LoggerTraits) (mem : Mem) (level : LogLevel) (calls : List StopCall) : Shut T where
  sys := .init T mem level
  joinable := true
  closed := false
  calls := calls
  owner := .between

/-- `m_Stop.store(true)`. -/
def storeStop (s : Shut T) : Shut T := { s with sys := { s.sys with stop := true } }

/-- `m_Stream.close()`, also what destroying the stream does. -/
def close (s : Shut T) : Shut T :=
  if s.closed then s
  else { s with sys := { s.sys with stream := s.sys.stream.flush }, closed := true }

/-- The owner's next step. -/
def ownerStep (s : Shut T) : Option (Shut T) :=
  match s.owner, s.calls with
  | .between, .base :: calls => some { s.storeStop with calls := calls }
  | .between, .singleFile :: calls => some { s.storeStop with calls := calls, owner := .stored }
  | .stored, _ =>
      if s.joinable then
        if s.sys.pc = .exited then some { s with joinable := false, owner := .joined } else none
      else some { s with owner := .threw }
  | .joined, _ => some { s.close with owner := .between }
  | .between, [] => some { s.close with owner := .streamGone }
  | .streamGone, _ => some { s with owner := if s.joinable then .terminated else .destroyed }
  | .destroyed, _ | .threw, _ | .terminated, _ => none

/-- The program runs. -/
def alive (s : Shut T) : Bool := s.sys.alive && s.owner ≠ .terminated

def step (s : Shut T) (a : ShutAction T) : Option (Shut T) :=
  if s.alive then
    match a with
    | .owner => s.ownerStep
    | .other .stop => none
    | .other a => (s.sys.step a).map fun sys => { s with sys := sys }
  else none

end Shut

/-- The program with an owner that stops its consumer as it likes. -/
def shutMachine (T : LoggerTraits) : Machine (Shut T) (ShutAction T) := ⟨Shut.step⟩

namespace Shut

theorem storeStop_of_stop {s : Shut T} (h : s.sys.stop = true) : s.storeStop = s := by
  rw [storeStop, ← h]

/-- A step is the owner's or another thread's. -/
theorem step_cases {s s' : Shut T} {a : ShutAction T}
    (hs : (shutMachine T).step s a = some s') :
    s.sys.alive = true ∧
      ((a = .owner ∧ s.ownerStep = some s') ∨
        ∃ (b : Action T) (sys : Sys T), a = .other b ∧ b ≠ .stop ∧ s.sys.step b = some sys ∧
          s' = { s with sys := sys }) := by
  have hs : s.step a = some s' := hs
  unfold step at hs
  split at hs
  · next halive =>
      rw [alive, Bool.and_eq_true] at halive
      refine ⟨halive.1, ?_⟩
      split at hs
      · exact .inl ⟨rfl, hs⟩
      · cases hs
      · next b hb _ =>
          obtain ⟨sys, hsys, rfl⟩ := Option.map_eq_some_iff.mp hs
          exact .inr ⟨b, sys, rfl, hb, hsys, rfl⟩
  · cases hs

end Shut

/-! ## What is asked of a shutdown -/

/-- The actions of the threads that do not stop the consumer. -/
def Action.other? : Action T → Option (Action T)
  | .stop => none
  | a => some a

def ShutAction.other? : ShutAction T → Option (Action T)
  | .owner => none
  | .other a => some a

theorem Action.other?_of_ne {a : Action T} (h : a ≠ .stop) : a.other? = some a := by
  cases a with
  | stop => exact absurd rfl h
  | _ => rfl

/-- After the run of `as` nothing has gone wrong, and if the consumer has been
destroyed, everything is as one `stop()` among the same actions leaves it. -/
structure Shut.Proper (mem : Mem) (level : LogLevel) (as : List (ShutAction T))
    (s : Shut T) : Prop where
  returns : s.owner ≠ .threw
  joinedFirst : s.owner = .streamGone → s.joinable = false
  survives : s.owner ≠ .terminated
  closedLast : s.closed = true → s.sys.pc = .exited
  asOnce : s.owner = .destroyed → s.joinable = false ∧ s.closed = true ∧
    ∃ bs, bs.filterMap Action.other? = as.filterMap ShutAction.other? ∧
      (machine T).run (.init T mem level) bs = some { s.sys with stopper := .returned }

/-- In no run that makes these calls does anything go wrong, and some run makes
them all and destroys the consumer. -/
def ShutsDown (T : LoggerTraits) (calls : List StopCall) : Prop :=
  ∀ (mem : Mem) (level : LogLevel),
    (∀ (as : List (ShutAction T)) (s : Shut T),
      (shutMachine T).run (.init T mem level calls) as = some s → s.Proper mem level as) ∧
    ∃ s, (shutMachine T).Reaches (.init T mem level calls) s ∧ s.owner = .destroyed

/-! ## One direct call -/

namespace Sys.Step

variable {s s' : Sys T} {a : Action T} {ev : Event}

theorem stop_eq (hs : Step s a ev s') (ha : a ≠ .stop) : s'.stop = s.stop := by
  cases hs with
  | stopCall _ _ | stopStore _ _ | stopJoin _ _ | stopClose _ _ => exact absurd rfl ha
  | _ => rfl

/-- A consumer that has exited stays where it is. -/
theorem exited (hs : Step s a ev s') (hexit : s.pc = .exited) : s'.pc = .exited := by
  cases hs with
  | testStop ch hpc | dequeueNone ch hpc _ | dequeue ch hpc _ _ | format ch hpc _
  | formatThrow ch hpc _ | insert ch hpc | flush ch hpc | sleep ch hpc | finalFlush ch hpc =>
      cases hpc.symm.trans hexit
  | _ => exact hexit

/-- The other threads do not know how far `stop()` is. -/
theorem withStopper (hs : Step s a ev s') (ha : a ≠ .stop) (p : StopperPc) :
    Step { s with stopper := p } a ev { s' with stopper := p } := by
  cases hs with
  | setLevel l halive => exact .setLevel l halive
  | overwrite q str halive => exact .overwrite q str halive
  | call t c alloc halive ht => exact .call t c alloc halive ht
  | refuse t halive ht => exact .refuse t halive ht
  | accept t halive ht => exact .accept t halive ht
  | testStop ch hpc => exact .testStop ch hpc
  | dequeueNone ch hpc hl => exact .dequeueNone ch hpc hl
  | dequeue ch hpc hl hq => exact .dequeue ch hpc hl hq
  | format ch hpc hf => exact .format ch hpc hf
  | formatThrow ch hpc hf => exact .formatThrow ch hpc hf
  | insert ch hpc => exact .insert ch hpc
  | flush ch hpc => exact .flush ch hpc
  | sleep ch hpc => exact .sleep ch hpc
  | finalFlush ch hpc => exact .finalFlush ch hpc
  | stopCall _ _ | stopStore _ _ | stopJoin _ _ | stopClose _ _ => exact absurd rfl ha

end Sys.Step

/-- The owner's consumer on the left, one whose `stop()` is called once on the
right.  The call on the right stores the flag when the first one on the left does,
whichever class that goes through. -/
inductive Shut.Mirrors : Shut T → Sys T → Prop
  | waiting {sys : Sys T} {calls : List StopCall} (hone : calls.count .singleFile = 1)
      (hstop : sys.stop = false) :
      Mirrors ⟨sys, true, false, calls, .between⟩ { sys with stopper := .idle }
  | flagged {sys : Sys T} {calls : List StopCall} (hone : calls.count .singleFile = 1)
      (hstop : sys.stop = true) :
      Mirrors ⟨sys, true, false, calls, .between⟩ { sys with stopper := .stored }
  | stored {sys : Sys T} {calls : List StopCall} (hnone : calls.count .singleFile = 0)
      (hstop : sys.stop = true) :
      Mirrors ⟨sys, true, false, calls, .stored⟩ { sys with stopper := .stored }
  | joined {sys : Sys T} {calls : List StopCall} (hnone : calls.count .singleFile = 0)
      (hstop : sys.stop = true) (hpc : sys.pc = .exited) :
      Mirrors ⟨sys, false, false, calls, .joined⟩ { sys with stopper := .joined }
  | released {sys : Sys T} {calls : List StopCall} (hnone : calls.count .singleFile = 0)
      (hstop : sys.stop = true) (hpc : sys.pc = .exited) :
      Mirrors ⟨sys, false, true, calls, .between⟩ { sys with stopper := .returned }
  | streamGone {sys : Sys T} (hstop : sys.stop = true) (hpc : sys.pc = .exited) :
      Mirrors ⟨sys, false, true, [], .streamGone⟩ { sys with stopper := .returned }
  | destroyed {sys : Sys T} (hstop : sys.stop = true) (hpc : sys.pc = .exited) :
      Mirrors ⟨sys, false, true, [], .destroyed⟩ { sys with stopper := .returned }

namespace Shut.Mirrors

variable {s s' : Shut T} {u : Sys T}

/-- A step that leaves the flag, and an exited consumer, is the same on both sides. -/
theorem move (h : s.Mirrors u) {sys : Sys T} (hstop : sys.stop = s.sys.stop)
    (hpc : s.sys.pc = .exited → sys.pc = .exited) :
    ∃ p : StopperPc, u = { s.sys with stopper := p } ∧
      Mirrors { s with sys := sys } { sys with stopper := p } := by
  cases h with
  | waiting hone hf => exact ⟨_, rfl, .waiting hone (hstop.trans hf)⟩
  | flagged hone hf => exact ⟨_, rfl, .flagged hone (hstop.trans hf)⟩
  | stored hnone hf => exact ⟨_, rfl, .stored hnone (hstop.trans hf)⟩
  | joined hnone hf he => exact ⟨_, rfl, .joined hnone (hstop.trans hf) (hpc he)⟩
  | released hnone hf he => exact ⟨_, rfl, .released hnone (hstop.trans hf) (hpc he)⟩
  | streamGone hf he => exact ⟨_, rfl, .streamGone (hstop.trans hf) (hpc he)⟩
  | destroyed hf he => exact ⟨_, rfl, .destroyed (hstop.trans hf) (hpc he)⟩

/-- The owner's step is answered by some steps of the one call. -/
theorem owner (h : s.Mirrors u) (halive : s.sys.alive = true) (hs : s.ownerStep = some s') :
    ∃ bs u', bs.filterMap Action.other? = [] ∧ (machine T).run u bs = some u' ∧
      s'.Mirrors u' := by
  cases h with
  | @waiting sys calls hone hstop =>
      -- the flag is stored now, by a call of either kind
      have hstore : (machine T).run { sys with stopper := .idle } [.stop, .stop] =
          some { sys with stop := true, stopper := .stored } :=
        Sys.Step.run_cons (.stopCall halive rfl) (Sys.Step.run_cons (.stopStore halive rfl) rfl)
      cases calls with
      | nil => cases hone
      | cons c calls =>
          cases c with
          | base =>
              cases hs
              exact ⟨_, _, rfl, hstore, .flagged (by simpa using hone) rfl⟩
          | singleFile =>
              cases hs
              exact ⟨_, _, rfl, hstore, .stored (by simpa using hone) rfl⟩
  | @flagged sys calls hone hstop =>
      cases calls with
      | nil => cases hone
      | cons c calls =>
          cases c with
          | base =>
              cases hs
              refine ⟨[], _, rfl, rfl, ?_⟩
              rw [storeStop_of_stop hstop]
              exact .flagged (by simpa using hone) hstop
          | singleFile =>
              cases hs
              refine ⟨[], _, rfl, rfl, ?_⟩
              rw [storeStop_of_stop hstop]
              exact .stored (by simpa using hone) hstop
  | @stored sys calls hnone hstop =>
      by_cases hpc : sys.pc = .exited
      · have hs' : some _ = some s' := (if_pos hpc).symm.trans hs
        cases hs'
        exact ⟨[.stop], _, rfl, Sys.Step.run_cons (.stopJoin hpc rfl) rfl, .joined hnone hstop hpc⟩
      · have hs' : none = some s' := (if_neg hpc).symm.trans hs
        cases hs'
  | joined hnone hstop hpc =>
      cases hs
      exact ⟨[.stop], _, rfl, Sys.Step.run_cons (.stopClose halive rfl) rfl,
        .released hnone hstop hpc⟩
  | @released sys calls hnone hstop hpc =>
      cases calls with
      | nil =>
          cases hs
          exact ⟨[], _, rfl, rfl, .streamGone hstop hpc⟩
      | cons c calls =>
          cases c with
          | base =>
              cases hs
              refine ⟨[], _, rfl, rfl, ?_⟩
              rw [storeStop_of_stop hstop]
              exact .released (by simpa using hnone) hstop hpc
          | singleFile => simp at hnone
  | streamGone hstop hpc =>
      cases hs
      exact ⟨[], _, rfl, rfl, .destroyed hstop hpc⟩
  | destroyed hstop hpc => cases hs

theorem step {a : ShutAction T} (h : s.Mirrors u) (hs : (shutMachine T).step s a = some s') :
    ∃ bs u', bs.filterMap Action.other? = a.other?.toList ∧ (machine T).run u bs = some u' ∧
      s'.Mirrors u' := by
  obtain ⟨halive, ⟨rfl, howner⟩ | ⟨b, sys, rfl, hb, hsys, rfl⟩⟩ := step_cases hs
  · exact h.owner halive howner
  · have hstep := Sys.Step.of_step hsys
    obtain ⟨p, rfl, hm⟩ := h.move (hstep.stop_eq hb) hstep.exited
    have hvis : b.other? = some b := Action.other?_of_ne hb
    exact ⟨[b], _, List.filterMap_cons_some hvis, (hstep.withStopper hb p).run_cons rfl, hm⟩

theorem init (mem : Mem) (level : LogLevel) {calls : List StopCall}
    (h : calls.count .singleFile = 1) :
    (Shut.init T mem level calls).Mirrors (Sys.init T mem level) := .waiting h rfl

/-- Nothing has gone wrong on the left, if the right is the one call's run. -/
theorem proper (h : s.Mirrors u) {mem : Mem} {level : LogLevel} {as : List (ShutAction T)}
    {bs : List (Action T)} (hvis : bs.filterMap Action.other? = as.filterMap ShutAction.other?)
    (hrun : (machine T).run (.init T mem level) bs = some u) : s.Proper mem level as := by
  have hgood : s.owner ≠ .threw ∧ s.owner ≠ .terminated ∧
      (s.owner = .streamGone → s.joinable = false) ∧ (s.closed = true → s.sys.pc = .exited) := by
    cases h with
    | joined hnone hstop hpc | released hnone hstop hpc | streamGone hstop hpc
    | destroyed hstop hpc => exact ⟨nofun, nofun, fun _ => rfl, fun _ => hpc⟩
    | _ => exact ⟨nofun, nofun, nofun, nofun⟩
  obtain ⟨hthrew, hterm, hjoin, hclosed⟩ := hgood
  refine ⟨hthrew, hjoin, hterm, hclosed, ?_⟩
  intro hd
  cases h with
  | destroyed hstop hpc => exact ⟨rfl, rfl, bs, hvis, hrun⟩
  | _ => cases hd

end Shut.Mirrors

/-- With one direct call no run goes wrong. -/
theorem Shut.proper_of_run {mem : Mem} {level : LogLevel} {calls : List StopCall}
    (h : calls.count .singleFile = 1) {as : List (ShutAction T)} {s : Shut T}
    (hrun : (shutMachine T).run (.init T mem level calls) as = some s) :
    s.Proper mem level as := by
  obtain ⟨bs, u, hvis, hrun', hm⟩ := Machine.simulation
    (fun _ _ _ _ hR hs => Shut.Mirrors.step hR hs) (Shut.Mirrors.init mem level h) hrun
  exact hm.proper hvis hrun'

/-! ## Any other number -/

namespace Shut

theorem reaches_owner {s s' t : Shut T} (halive : s.alive = true) (hs : s.ownerStep = some s')
    (h : (shutMachine T).Reaches s' t) : (shutMachine T).Reaches s t :=
  h.step .owner ((if_pos halive).trans hs)

/-- Calls through the base only store the flag. -/
theorem reaches_pass (joinable closed : Bool) {pre : List StopCall} (rest : List StopCall)
    (hpre : .singleFile ∉ pre) {sys : Sys T} (halive : sys.alive = true) :
    ∃ stop, (shutMachine T).Reaches ⟨sys, joinable, closed, pre ++ rest, .between⟩
      ⟨{ sys with stop := stop }, joinable, closed, rest, .between⟩ := by
  induction pre generalizing sys with
  | nil => exact ⟨sys.stop, .refl _⟩
  | cons c pre ih =>
      rw [List.mem_cons, not_or] at hpre
      cases c with
      | singleFile => exact absurd rfl hpre.1
      | base =>
          have halive' : ({ sys with stop := true } : Sys T).alive = true := halive
          obtain ⟨stop, hreach⟩ := ih hpre.2 halive'
          refine ⟨stop, reaches_owner ?_ rfl hreach⟩
          rw [alive, halive]
          rfl

/-- The system after one direct call, with nothing logged. -/
def stopped (T : LoggerTraits) (mem : Mem) (level : LogLevel) : Sys T :=
  { Sys.init T mem level with stop := true, pc := .exited }

section Reaching

variable (T) (mem : Mem) (level : LogLevel) {pre : List StopCall} (rest : List StopCall)

/-- The first direct call comes back if the consumer gets to run. -/
theorem reaches_released (hpre : .singleFile ∉ pre) :
    (shutMachine T).Reaches (.init T mem level (pre ++ .singleFile :: rest))
      ⟨stopped T mem level, false, true, rest, .between⟩ := by
  have halive : (Sys.init T mem level).alive = true := rfl
  obtain ⟨stop, hpass⟩ := reaches_pass true false (.singleFile :: rest) hpre halive
  refine hpass.trans (reaches_owner rfl rfl ?_)
  -- the consumer sees the flag and exits
  refine .step (.other (.consume ⟨none, 0⟩)) rfl ?_
  refine .step (.other (.consume ⟨none, 0⟩)) rfl ?_
  exact reaches_owner rfl rfl (reaches_owner rfl rfl (.refl _))

/-- Without another direct call the consumer can be destroyed. -/
theorem reaches_destroyed (hpre : .singleFile ∉ pre) (hrest : .singleFile ∉ rest) :
    ∃ s, (shutMachine T).Reaches (.init T mem level (pre ++ .singleFile :: rest)) s ∧
      s.owner = .destroyed := by
  have halive : (stopped T mem level).alive = true := rfl
  obtain ⟨stop, hpass⟩ := reaches_pass false true [] hrest halive
  rw [List.append_nil] at hpass
  exact ⟨_, (reaches_released T mem level rest hpre).trans
    (hpass.trans (reaches_owner rfl rfl (reaches_owner rfl rfl (.refl _)))), rfl⟩

/-- A second direct call joins a handle that is not joinable. -/
theorem reaches_threw {pre' : List StopCall} (hpre : .singleFile ∉ pre)
    (hpre' : .singleFile ∉ pre') :
    ∃ s, (shutMachine T).Reaches
        (.init T mem level (pre ++ .singleFile :: (pre' ++ .singleFile :: rest))) s ∧
      s.owner = .threw := by
  have halive : (stopped T mem level).alive = true := rfl
  obtain ⟨stop, hpass⟩ := reaches_pass false true (.singleFile :: rest) hpre' halive
  exact ⟨_, (reaches_released T mem level _ hpre).trans
    (hpass.trans (reaches_owner rfl rfl (reaches_owner rfl rfl (.refl _)))), rfl⟩

/-- Without a direct call the handle is joinable when it is destroyed. -/
theorem reaches_terminated (hpre : .singleFile ∉ pre) :
    ∃ s, (shutMachine T).Reaches (.init T mem level pre) s ∧ s.owner = .terminated := by
  have halive : (Sys.init T mem level).alive = true := rfl
  obtain ⟨stop, hpass⟩ := reaches_pass true false [] hpre halive
  rw [List.append_nil] at hpass
  exact ⟨_, hpass.trans (reaches_owner rfl rfl (reaches_owner rfl rfl (.refl _))), rfl⟩

end Reaching

end Shut

/-- A sequence of calls shuts the consumer down exactly if one of them, and only
one, is direct. -/
theorem shutsDown_iff (calls : List StopCall) :
    ShutsDown T calls ↔ calls.count .singleFile = 1 := by
  constructor
  · intro h
    have hproper := (h .blank .info).1
    by_cases hmem : .singleFile ∈ calls
    · obtain ⟨pre, rest, rfl, hpre⟩ := List.eq_append_cons_of_mem hmem
      by_cases hmem' : .singleFile ∈ rest
      · obtain ⟨pre', rest, rfl, hpre'⟩ := List.eq_append_cons_of_mem hmem'
        obtain ⟨s, ⟨as, hrun⟩, hthrew⟩ := Shut.reaches_threw T .blank .info rest hpre hpre'
        exact absurd hthrew (hproper as s hrun).returns
      · rw [List.count_append, List.count_cons_self, List.count_eq_zero_of_not_mem hpre,
          List.count_eq_zero_of_not_mem hmem']
    · obtain ⟨s, ⟨as, hrun⟩, hterm⟩ := Shut.reaches_terminated T .blank .info hmem
      exact absurd hterm (hproper as s hrun).survives
  · intro hone mem level
    refine ⟨fun as s hrun => Shut.proper_of_run hone hrun, ?_⟩
    have hmem : .singleFile ∈ calls := List.one_le_count_iff.mp (Nat.le_of_eq hone.symm)
    obtain ⟨pre, rest, rfl, hpre⟩ := List.eq_append_cons_of_mem hmem
    refine Shut.reaches_destroyed T mem level rest hpre fun hmem' => ?_
    have := List.one_le_count_iff.mpr hmem'
    rw [List.count_append, List.count_cons_self] at hone
    omega

/-- A consumer that is destroyed without a call. -/
theorem not_shutsDown :
    ¬ ∀ (T : LoggerTraits) (calls : List StopCall), ShutsDown T calls := by
  intro h
  obtain ⟨s, ⟨as, hrun⟩, hterm⟩ :=
    Shut.reaches_terminated loggerTraits .blank .info (List.not_mem_nil : StopCall.singleFile ∉ [])
  exact ((h loggerTraits [] .blank .info).1 as s hrun).survives hterm

end Rtlog
