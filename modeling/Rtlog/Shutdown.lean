/-
# `Rtlog.Shutdown` — which messages survive `stop()`

`consume()` tests `m_Stop` only outside its draining loop, and after the loop it
flushes but does not drain.  So a message that is in the queue when the flag is
set is written exactly if the consumer is still going to drain:

    consumer when the flag is set     what is queued then
    tryDequeue, format, insert        written, if the loop runs until empty
    testStop, flush, sleep            never written

`StopsDrained` is this as a condition on single steps: the two steps after which
the consumer can no longer drain, the store to `m_Stop` outside the loop and the
`try_dequeue` that ends the loop when the flag is set, happen with nothing in
the queue that was enqueued before `stop()` was called.  `lineOnce_iff` says that
a run that has returned from `stop()` has kept every such message if and only if
its steps meet the condition, and `lost` is a run that does not.
-/
import Rtlog.History

namespace Rtlog

variable {T : LoggerTraits}

/-! ## The order of stopping -/

/-- How `m_Stop`, the consumer and `stop()` constrain each other. -/
structure Stopping (s : Sys T) (h : Hist T) : Prop where
  flag : s.stop = true ↔ s.stopper ≠ .idle ∧ s.stopper ≠ .called
  leaving : s.pc = .finalFlush ∨ s.pc = .exited → s.stop = true
  joined : s.stopper = .joined ∨ s.stopper = .returned → s.pc = .exited
  closed : s.stopper = .returned → s.stream.buffer = []
  snapshot : ∀ t, h.beforeStop t <+: h.accepted t

namespace Stopping

theorem init (mem : Mem) (level : LogLevel) : Stopping (Sys.init T mem level) .init where
  flag := iff_of_false (nofun) fun h => h.1 rfl
  leaving := nofun
  joined := nofun
  closed := nofun
  snapshot _ := List.prefix_rfl

variable {s s' : Sys T} {h : Hist T}

/-- What was there before stays what was there before. -/
theorem snapshot_add (hI : Stopping s h) (ev : Event) (t : Tid) :
    (h.add ev).beforeStop t <+: (h.add ev).accepted t := by
  by_cases hev : ev = .stopping
  · subst hev
    exact List.prefix_rfl
  · rw [Hist.add_beforeStop h hev]
    exact (hI.snapshot t).trans (h.accepted_prefix_add ev t)

/-- A step of the consumer. -/
theorem move {ev : Event} (hI : Stopping s h) (hpc : s.pc ≠ .exited) (hf : s'.stop = s.stop)
    (hst : s'.stopper = s.stopper)
    (hleave : s'.pc = .finalFlush ∨ s'.pc = .exited → s.stop = true) :
    Stopping s' (h.add ev) where
  flag := by rw [hf, hst]; exact hI.flag
  leaving := by rw [hf]; exact hleave
  joined hj := absurd (hI.joined (hst ▸ hj)) hpc
  closed hc := absurd (hI.joined (.inr (hst ▸ hc))) hpc
  snapshot := hI.snapshot_add ev

theorem step {a : Action T} {ev : Event} (hI : Stopping s h) (hs : Sys.Step s a ev s') :
    Stopping s' (h.add ev) := by
  have hsnap := hI.snapshot_add ev
  cases hs with
  | setLevel l _ | overwrite p str _ | refuse t _ _ | call t c alloc _ _ | accept t _ _ =>
      exact { hI with snapshot := hsnap }
  | testStop ch hpc =>
      refine hI.move (by rw [hpc]; nofun) rfl rfl ?_
      intro hleave
      by_contra hstop
      simp [hstop] at hleave
  | dequeueNone ch hpc _ | dequeue ch hpc _ _ | format ch hpc _ | formatThrow ch hpc _
  | insert ch hpc | flush ch hpc | sleep ch hpc =>
      exact hI.move (by rw [hpc]; nofun) rfl rfl nofun
  | finalFlush ch hpc =>
      exact hI.move (by rw [hpc]; nofun) rfl rfl fun _ => hI.leaving (.inl hpc)
  | stopCall _ hst =>
      have hstop : s.stop ≠ true := fun hstop => (hI.flag.mp hstop).1 hst
      exact {
        flag := iff_of_false hstop fun hc => hc.2 rfl
        leaving := hI.leaving
        joined := nofun
        closed := nofun
        snapshot := hsnap }
  | stopStore _ hst =>
      exact {
        flag := iff_of_true rfl ⟨nofun, nofun⟩
        leaving := fun _ => rfl
        joined := nofun
        closed := nofun
        snapshot := hsnap }
  | stopJoin hpc hst =>
      have hstop : s.stop = true := hI.leaving (.inr hpc)
      exact {
        flag := iff_of_true hstop ⟨nofun, nofun⟩
        leaving := fun _ => hstop
        joined := fun _ => hpc
        closed := nofun
        snapshot := hsnap }
  | stopClose _ hst =>
      have hpc : s.pc = .exited := hI.joined (.inl hst)
      have hstop : s.stop = true := hI.leaving (.inr hpc)
      exact {
        flag := iff_of_true hstop ⟨nofun, nofun⟩
        leaving := fun _ => hstop
        joined := fun _ => hpc
        closed := fun _ => rfl
        snapshot := hsnap }

theorem of_run {mem : Mem} {level : LogLevel} {as : List (Action T)} {w : World T}
    (hrun : (recorded T).run (.init T mem level) as = some w) : Stopping w.now w.hist :=
  World.run_invariant (fun _ _ _ _ _ hI hs => hI.step hs) (.init mem level) hrun

end Stopping

/-! ## What is queued when the consumer can no longer drain -/

/-- The consumer is in its draining loop, or an exception has left it. -/
def ConsumerPc.draining : ConsumerPc → Bool
  | .tryDequeue | .format | .insert _ | .terminated _ => true
  | _ => false

/-- The flag is set, and the consumer is where the next thing it does about the
queue is to test the flag. -/
def Sys.Leaving (s : Sys T) : Prop := s.stop = true ∧ s.pc.draining = false

/-- Nothing that was enqueued before `stop()` was called is in the queue. -/
def Hist.Settled (h : Hist T) : Prop := ∀ t, ∀ e ∈ h.beforeStop t, e ∉ h.queued t

/-- A step that takes the consumer's last chance to drain takes it when nothing
that was enqueued before `stop()` was called is in the queue. -/
def StopsDrained (w : World T) (a : Action T) (_ : World T) : Prop :=
  match a with
  | .stop => w.now.stopper = .called → w.now.pc.draining = false → w.hist.Settled
  | .consume ch => w.now.pc = .tryDequeue → ch.lane = none → w.now.stop = true → w.hist.Settled
  | _ => True

section Leaving

variable {s s' : Sys T} {h : Hist T} {a : Action T} {ev : Event}

theorem leaving_step (hl : s.Leaving) (hs : Sys.Step s a ev s') :
    s'.Leaving := by
  obtain ⟨hstop, hdr⟩ := hl
  cases hs with
  | testStop ch hpc => exact ⟨hstop, by simp [hstop, ConsumerPc.draining]⟩
  | dequeueNone ch hpc _ | dequeue ch hpc _ _ | format ch hpc _ | formatThrow ch hpc _
  | insert ch hpc =>
      rw [hpc] at hdr
      cases hdr
  | flush ch hpc | sleep ch hpc | finalFlush ch hpc => exact ⟨hstop, rfl⟩
  | stopStore _ _ => exact ⟨rfl, hdr⟩
  | _ => exact ⟨hstop, hdr⟩

/-- Once the consumer is leaving, the queue only grows. -/
theorem settled_step (hI : Stopping s h) (hL : Ledger s h) (hl : s.Leaving)
    (hs : Sys.Step s a ev s') : (h.add ev).Settled ↔ h.Settled := by
  obtain ⟨hstop, hdr⟩ := hl
  cases hs with
  | accept t _ ht =>
      obtain ⟨c, hc, -, fits, rfl⟩ := hL.exists_offered ht
      rw [Hist.add_accepted hc fits]
      refine forall_congr' fun u => forall_congr' fun e => imp_congr_right fun he => ?_
      show e ∉ h.queued.push t _ u ↔ e ∉ h.queued u
      rw [Lanes.mem_push, not_or]
      refine and_iff_left ?_
      rintro ⟨rfl, rfl⟩
      exact hL.next_not_mem rfl ((hI.snapshot _).subset he)
  | dequeue ch hpc _ _ | format ch hpc _ | formatThrow ch hpc _ =>
      rw [hpc] at hdr
      cases hdr
  | stopCall _ hst => exact absurd hst (hI.flag.mp hstop).1
  | _ => exact Iff.rfl

/-- The two steps with which the consumer starts leaving. -/
theorem settled_of_starts_leaving (hl : ¬ s.Leaving)
    (hs : Sys.Step s a ev s') (hl' : s'.Leaving) (hP : StopsDrained ⟨s, h⟩ a ⟨s', h.add ev⟩) :
    (h.add ev).Settled := by
  obtain ⟨hstop, hdr⟩ := hl'
  cases hs with
  | testStop ch hpc =>
      exact absurd ⟨hstop, by rw [hpc]; rfl⟩ hl
  | dequeueNone ch hpc hlane => exact hP hpc hlane hstop
  | dequeue ch _ _ _ | format ch _ _ | formatThrow ch _ _ | insert ch _ => cases hdr
  | flush ch hpc | sleep ch hpc | finalFlush ch hpc => exact absurd ⟨hstop, by rw [hpc]; rfl⟩ hl
  | stopStore _ hst => exact hP hst hdr
  | _ => exact absurd ⟨hstop, hdr⟩ hl

/-- A step that does not meet the condition is one of the two. -/
theorem leaving_of_not_stopsDrained (hs : Sys.Step s a ev s')
    (hP : ¬ StopsDrained ⟨s, h⟩ a ⟨s', h.add ev⟩) : s'.Leaving ∧ ¬ (h.add ev).Settled := by
  cases hs with
  | dequeueNone ch _ _ =>
      simp only [StopsDrained, Classical.not_imp] at hP
      obtain ⟨-, -, hstop, hn⟩ := hP
      exact ⟨⟨hstop, rfl⟩, hn⟩
  | stopStore _ _ =>
      simp only [StopsDrained, Classical.not_imp] at hP
      obtain ⟨-, hdr, hn⟩ := hP
      exact ⟨⟨rfl, hdr⟩, hn⟩
  | dequeue ch _ hl _ =>
      refine absurd ?_ hP
      intro _ hn
      cases hl.symm.trans hn
  | testStop ch hpc | format ch hpc _ | formatThrow ch hpc _ | insert ch hpc | flush ch hpc
  | sleep ch hpc | finalFlush ch hpc =>
      refine absurd ?_ hP
      intro hpc'
      cases hpc.symm.trans hpc'
  | stopCall _ hst | stopJoin _ hst | stopClose _ hst =>
      refine absurd ?_ hP
      intro hst'
      cases hst.symm.trans hst'
  | _ => exact absurd trivial hP

end Leaving

/-- In a run that ends with the consumer leaving, what was enqueued before
`stop()` was called has left the queue exactly if the steps meet the condition. -/
theorem settled_iff_along {mem : Mem} {level : LogLevel} {as : List (Action T)} {w : World T}
    (hrun : (recorded T).run (.init T mem level) as = some w) (hl : w.now.Leaving) :
    w.hist.Settled ↔ (recorded T).Along StopsDrained (.init T mem level) as := by
  constructor
  · intro hset
    by_contra hP
    obtain ⟨pre, a, post, u, v, -, hu, hv, hnp, hrun⟩ := Machine.exists_step_of_not_along hrun hP
    obtain ⟨ev, hs, hh⟩ := World.step_eq_some_iff.mp hv
    obtain ⟨s', h'⟩ := v
    cases hh
    obtain ⟨hleave, hlost⟩ := leaving_of_not_stopsDrained hs hnp
    have hI := (Stopping.of_run hu).step hs
    have hL := (Ledger.of_run hu).step hs
    -- what is lost at that step stays lost
    refine (World.run_invariant
      (I := fun s h => Stopping s h ∧ Ledger s h ∧ s.Leaving ∧ ¬ h.Settled)
      ?_ ⟨hI, hL, hleave, hlost⟩ hrun).2.2.2 hset
    intro s a ev s' h hJ hs
    obtain ⟨hI, hL, hl, hn⟩ := hJ
    exact ⟨hI.step hs, hL.step hs, leaving_step hl hs,
      fun hset => hn ((settled_step hI hL hl hs).mp hset)⟩
  · intro hP
    refine (World.along_invariant
      (I := fun s h => Stopping s h ∧ Ledger s h ∧ (s.Leaving → h.Settled))
      ?_ hP ⟨.init mem level, .init mem level, ?_⟩ hrun).2.2 hl
    · intro s a ev s' h hJ hs hp
      obtain ⟨hI, hL, hset⟩ := hJ
      refine ⟨hI.step hs, hL.step hs, ?_⟩
      intro hl'
      by_cases hl : s.Leaving
      · exact (settled_step hI hL hl hs).mpr (hset hl)
      · exact settled_of_starts_leaving hl hs hl' hp
    · rintro ⟨hstop, -⟩
      cases hstop

/-! ## The file after `stop()` -/

/-- The file holds the line of `e`, and holds it once. -/
def World.LineOnce (w : World T) (e : Entry T) : Prop :=
  ∃ pre x post, w.hist.turns = pre ++ x :: post ∧ x.entry = e ∧
    (∀ y ∈ pre ++ post, y.entry ≠ e) ∧
    w.now.stream.file = (pre.map Turn.written).flatten ++ x.written ++
      (post.map Turn.written).flatten

/-- After `stop()` the file is what the turns have written. -/
theorem file_of_returned {mem : Mem} {level : LogLevel} {as : List (Action T)} {w : World T}
    (hrun : (recorded T).run (.init T mem level) as = some w)
    (hret : w.now.stopper = .returned) :
    w.hist.dequeued = w.hist.turns.map Turn.entry ∧ w.now.stream.file = w.hist.text := by
  have hI := Stopping.of_run hrun
  have hd := (Written.of_run hrun).doneWith
  rw [hI.joined (.inr hret)] at hd
  refine ⟨hd.1, ?_⟩
  rw [← hd.2, Stream.contents, hI.closed hret, List.append_nil]

theorem lineOnce_iff_not_mem_queued {mem : Mem} {level : LogLevel} {as : List (Action T)}
    {w : World T} (hrun : (recorded T).run (.init T mem level) as = some w)
    (hret : w.now.stopper = .returned) {t : Tid} {e : Entry T} (he : e ∈ w.hist.accepted t) :
    w.LineOnce e ↔ e ∉ w.hist.queued t := by
  have hL := Ledger.of_run hrun
  obtain ⟨hde, hfile⟩ := file_of_returned hrun hret
  constructor
  · rintro ⟨pre, x, post, hturns, rfl, -, -⟩ hq
    refine hL.conserves.not_mem_removed hL.accepted_nodup hq ?_
    rw [hde, hturns]
    simp
  · intro hq
    have hmem : e ∈ w.hist.turns.map Turn.entry := by
      rw [← hde]
      rcases hL.conserves.mem_accepted_iff.mp he with h | h
      · exact h.1
      · exact absurd h hq
    obtain ⟨x, hx, rfl⟩ := List.mem_map.mp hmem
    obtain ⟨pre, post, hturns⟩ := List.append_of_mem hx
    have hnd := hL.dequeued_nodup
    rw [hde, hturns, List.map_append, List.map_cons, List.nodup_middle] at hnd
    refine ⟨pre, x, post, hturns, rfl, ?_, ?_⟩
    · intro y hy heq
      refine (List.nodup_cons.mp hnd).1 ?_
      rw [← heq, ← List.map_append]
      exact List.mem_map_of_mem hy
    · rw [hfile, Hist.text, hturns]
      simp

/-- A run that has returned from `stop()` has written every message enqueued
before the call, once, exactly if its steps meet the condition. -/
theorem lineOnce_iff {mem : Mem} {level : LogLevel} {as : List (Action T)} {w : World T}
    (hrun : (recorded T).run (.init T mem level) as = some w)
    (hret : w.now.stopper = .returned) :
    (∀ t, ∀ e ∈ w.hist.beforeStop t, w.LineOnce e) ↔
      (recorded T).Along StopsDrained (.init T mem level) as := by
  have hI := Stopping.of_run hrun
  have hpc : w.now.pc = .exited := hI.joined (.inr hret)
  have hl : w.now.Leaving := ⟨hI.leaving (.inr hpc), by rw [hpc]; rfl⟩
  rw [← settled_iff_along hrun hl]
  refine forall_congr' fun t => forall_congr' fun e => imp_congr_right fun he => ?_
  exact lineOnce_iff_not_mem_queued hrun hret ((hI.snapshot t).subset he)

/-! ## A lost message -/

/-- `LOG_INFO(42)` without a time point. -/
def fortyTwoCall : Call loggerTraits :=
  .bare ⟨none, .ofInt .int32 1, .info, 0, .ofInt .int32 42, []⟩ rfl

/-- The consumer's next step, with nothing found and nothing spilled. -/
def idleStep : Action loggerTraits := .consume ⟨none, 0⟩

/-- The consumer finds nothing and sleeps; a message is enqueued; `stop()` is
called and sets the flag; the consumer wakes up and leaves. -/
def lost : List (Action loggerTraits) :=
  [idleStep, idleStep, idleStep,
    .call 0 fortyTwoCall fun _ => true, .enqueue 0 true,
    .stop, .stop,
    idleStep, idleStep, idleStep,
    .stop, .stop]

theorem formats_fortyTwoCall : fortyTwoCall.msg.Formats loggerTraits .blank := by
  constructor
  · intro v hv n hn
    have hall : ∀ v ∈ fortyTwoCall.msg.shown, v.ty = .int .int32 ∨ v.ty = .logLevel ∨
        v.ty = .constCharPtr := by decide
    rcases hall v hv with h | h | h <;> cases h.symm.trans hn
  · decide +kernel

theorem exists_run_lost : ∃ w, (recorded loggerTraits).run (.init _ .blank .info) lost = some w ∧
    w.now.stopper = .returned ∧ w.now.stream.file = [] ∧ w.hist.turns = [] ∧
    (∃ e, e ∈ w.hist.beforeStop 0) ∧
    w.hist.accepted = Lanes.empty.push 0 ⟨0, 0, ⟨fortyTwoCall.msg, .blank, 0⟩, by decide⟩ :=
  ⟨_, rfl, rfl, rfl, rfl, ⟨_, List.mem_singleton_self _⟩, rfl⟩

theorem not_lineOnce_of_turns_eq_nil {w : World T} (h : w.hist.turns = []) (e : Entry T) :
    ¬ w.LineOnce e := by
  rintro ⟨pre, x, post, hturns, -⟩
  rw [h] at hturns
  exact List.append_ne_nil_of_right_ne_nil pre (List.cons_ne_nil x post) hturns.symm

theorem lineOnce_iff_lost :
    ¬ (recorded loggerTraits).Along StopsDrained (.init _ .blank .info) lost := by
  obtain ⟨w, hrun, hret, -, hnil, ⟨e, he⟩, -⟩ := exists_run_lost
  exact fun hP => not_lineOnce_of_turns_eq_nil hnil e ((lineOnce_iff hrun hret).mpr hP 0 e he)

theorem not_lineOnce :
    ¬ ∀ (T : LoggerTraits) (mem : Mem) (level : LogLevel) (as : List (Action T)) (w : World T),
      (recorded T).run (.init T mem level) as = some w → w.now.stopper = .returned →
        (∀ t, ∀ e ∈ w.hist.accepted t, e.call.msg.Formats T e.call.mem) →
          (∀ x ∈ w.hist.turns, x.Formats) →
            ∀ t, ∀ e ∈ w.hist.beforeStop t, w.LineOnce e := by
  intro h
  obtain ⟨w, hrun, hret, -, hnil, ⟨e, he⟩, hacc⟩ := exists_run_lost
  have hformats : ∀ t, ∀ e ∈ w.hist.accepted t, e.call.msg.Formats loggerTraits e.call.mem := by
    intro t e he
    rw [hacc] at he
    rcases Lanes.mem_push.mp he with he | ⟨-, rfl⟩
    · cases he
    · exact formats_fortyTwoCall
  have hturns : ∀ x ∈ w.hist.turns, x.Formats := by
    rw [hnil]
    exact List.forall_mem_nil _
  exact not_lineOnce_of_turns_eq_nil hnil e (h _ _ _ _ w hrun hret hformats hturns 0 e he)

end Rtlog
