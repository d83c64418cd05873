/-
# `Rtlog.Delivery` — from the queue's own code to the file

What `Rtlog.System` says of files is carried over to the program by `Rtlog.Simulation`:

    program_file    after `stop()` the file is the lines of what was dequeued, in order,
                    and of each thread's messages that is a first part

and with the queue's own code there is something to say about `try_dequeue`, which the
system lets come back with nothing at any time.  `consume()` stops draining for a round
when it does; it does so only if every producer was empty at the load of the list, with
which the call begins (`drained_of_flush`).  So what was in the queue at that load is in
the file after `stop()`, however early `stop()` is called (`delivered`).
-/
import Rtlog.Simulation
import Rtlog.Shutdown

namespace Rtlog

namespace Queue

/-! ## A call that is over has an answer -/

variable {ι κ α : Type}

theorem Score.done_ne (score : Score ι) : (score.done : TryDequeue ι α) ≠ .idle none := by
  unfold Score.done
  split
  · cases score.best <;> nofun
  · nofun

theorem Score.visit_ne (score : Score ι) (ptrs : List ι) :
    (score.visit ptrs : TryDequeue ι α) ≠ .idle none := by
  cases ptrs with
  | nil => exact score.done_ne
  | cons ptr ptrs =>
      by_cases hcount : score.nonEmptyCount < 3
      · rw [Score.visit, if_pos hcount]
        simp
      · rw [Score.visit, if_neg hcount]
        exact score.done_ne

variable [DecidableEq ι]

theorem tryNext_ne (best : ι) (ptrs : List ι) :
    (tryNext best ptrs : TryDequeue ι α) ≠ .idle none := by
  induction ptrs with
  | nil => nofun
  | cons ptr ptrs ih =>
      unfold tryNext
      split
      · nofun
      · exact ih

omit [DecidableEq ι] in
theorem Dequeue.back_ne {d : Dequeue ι α} {failed inside : TryDequeue ι α}
    (hfailed : failed ≠ .idle none) (hinside : inside ≠ .idle none) :
    d.back failed inside ≠ .idle none := by
  unfold Dequeue.back
  split
  · nofun
  · exact hfailed
  · exact hinside

theorem ListedQueue.next_ne [DecidableEq κ] {s s' : ListedQueue ι κ α} {c : κ}
    (hs : s.tryDequeueStep c = some s') : s'.scan c ≠ .idle none := by
  unfold tryDequeueStep at hs
  cases hp : s.scan c with
  | idle | undefined => simp [hp] at hs
  | loadList | loadHead =>
      simp only [hp, Option.some.injEq] at hs
      rw [← hs, scan_goto]
      exact Score.visit_ne _ _
  | loadTail =>
      simp only [hp, Option.some.injEq] at hs
      rw [← hs, scan_goto]
      nofun
  | reloadList =>
      simp only [hp, Option.some.injEq] at hs
      rw [← hs, scan_goto]
      exact tryNext_ne _ _
  | callBest | callNext =>
      simp only [hp, Option.map_eq_some_iff] at hs
      obtain ⟨q, -, rfl⟩ := hs
      rw [scan_goto]
      nofun
  | inBest best =>
      simp only [hp, Option.map_eq_some_iff] at hs
      obtain ⟨q, -, rfl⟩ := hs
      rw [scan_goto]
      exact Dequeue.back_ne nofun nofun
  | inNext best ptrs =>
      simp only [hp, Option.map_eq_some_iff] at hs
      obtain ⟨q, -, rfl⟩ := hs
      rw [scan_goto]
      exact Dequeue.back_ne (tryNext_ne _ _) nofun

/-- Consumers are not concerned by what producers do. -/
theorem ListedQueue.scan_of_produce [DecidableEq κ] {s s' : ListedQueue ι κ α} {act : Action ι κ α}
    (hs : s.step act = some s') (hact : ∀ c, act ≠ .tryDequeue c ∧ act ≠ .next c) :
    s'.scan = s.scan := by
  cases act with
  | addProducer i =>
      simp only [ListedQueue.step] at hs
      split at hs
      · cases hs
      · cases hs
        rfl
  | tryEnqueue i a =>
      simp only [ListedQueue.step] at hs
      split at hs
      · obtain ⟨q, -, rfl⟩ := Option.map_eq_some_iff.mp hs
        rfl
      · cases hs
  | enqueue i | tryGet i got =>
      obtain ⟨q, -, rfl⟩ := Option.map_eq_some_iff.mp hs
      rfl
  | tryDequeue c => exact absurd rfl (hact c).1
  | next c => exact absurd rfl (hact c).2

end Queue

open Queue (View ListedQueue)

variable {T : LoggerTraits} {mem : Mem} {level : LogLevel} {blockCount : Nat}
  {blockIndex : Tid → Bool} {value : Tid → Queue.Size → Option Queue.BlockId}

/-! ## The consumer in `try_dequeue` -/

/-- The consumer is in `try_dequeue`, and if thread `t` has messages it will not come back
with nothing. -/
structure Program.Searching (t : Tid) (p : Program T) : Prop where
  inside : ∀ last, p.queue.scan () ≠ .idle last
  awaits : ∃ (v : View Tid Unit (ArgumentArray T)) (r : Option (ArgumentArray T)),
    p.queue.Ok v r ∧ ListedQueue.Awaits v.laneQueue p.queue t

namespace Program.Searching

variable {p p' : Program T} {t : Tid} {q : ListedQueue Tid Unit (ArgumentArray T)}

/-- A step of a producer. -/
theorem produce {act : ListedQueue.Action Tid Unit (ArgumentArray T)} (h : p.Searching t)
    (hs : p.queue.step act = some q) (hact : ∀ c, act ≠ .tryDequeue c ∧ act ≠ .next c)
    (hq : p'.queue = q) : p'.Searching t := by
  obtain ⟨v, r, hok, hawaits⟩ := h.awaits
  obtain ⟨v', r', -, hok', hkeep⟩ := hok.step hs
  refine ⟨?_, v', r', ?_⟩
  · rw [hq, ListedQueue.scan_of_produce hs hact]
    exact h.inside
  · rw [hq]
    exact ⟨hok', hkeep (hact ()).1 t hawaits⟩

theorem consume {spill : Nat} (h : p.Searching t) (hpc : p.pc = .tryDequeue)
    (hs : p.consumeStep spill = some p') :
    p'.pc = .format ∨ p'.pc = .tryDequeue ∧ p'.Searching t := by
  simp only [consumeStep, hpc] at hs
  split at hs
  · next last hscan => exact absurd hscan (h.inside last)
  · obtain ⟨q, hq, rfl⟩ := Option.map_eq_some_iff.mp hs
    obtain ⟨v, r, hok, hawaits⟩ := h.awaits
    obtain ⟨v', r', -, hok', hkeep⟩ := hok.step hq
    have hawaits' := hkeep nofun t hawaits
    unfold dequeued
    split
    · exact .inl rfl
    · next hscan =>
        rw [ListedQueue.Awaits, hscan] at hawaits'
        exact absurd rfl hawaits'
    · next hsome hnone =>
        refine .inr ⟨hpc, fun last hlast => ?_, v', r', hok', hawaits'⟩
        cases last with
        | none => exact ListedQueue.next_ne hq hlast
        | some r => cases r with
            | none => exact hnone hlast
            | some a => exact hsome a hlast

theorem step {a : Action T} (h : p.Searching t) (hpc : p.pc = .tryDequeue)
    (hs : p.step a = some p') : p'.pc = .format ∨ p'.pc = .tryDequeue ∧ p'.Searching t := by
  unfold Program.step at hs
  split at hs
  · cases a with
    | setLevel l | overwrite ptr str =>
        cases hs
        exact .inr ⟨hpc, h.inside, h.awaits⟩
    | consume spill => exact h.consume hpc hs
    | stop =>
        simp only [stopStep] at hs
        split at hs
        · cases hs; exact .inr ⟨hpc, h.inside, h.awaits⟩
        · cases hs; exact .inr ⟨hpc, h.inside, h.awaits⟩
        · split at hs
          · cases hs; exact .inr ⟨hpc, h.inside, h.awaits⟩
          · cases hs
        · cases hs; exact .inr ⟨hpc, h.inside, h.awaits⟩
        · cases hs
    | call u c alloc =>
        simp only [writeStep] at hs
        split at hs
        · cases hs; exact .inr ⟨hpc, h.inside, h.awaits⟩
        · cases hs
    | addProducer u =>
        simp only [writeStep] at hs
        split at hs
        · obtain ⟨q, hq, rfl⟩ := Option.map_eq_some_iff.mp hs
          exact .inr ⟨hpc, h.produce hq (fun _ => ⟨by simp, by simp⟩) rfl⟩
        · cases hs
    | noProducer u =>
        simp only [writeStep] at hs
        split at hs
        · split at hs
          · cases hs
          · cases hs; exact .inr ⟨hpc, h.inside, h.awaits⟩
        · cases hs
    | tryEnqueue u =>
        simp only [writeStep] at hs
        split at hs
        · obtain ⟨q, hq, rfl⟩ := Option.map_eq_some_iff.mp hs
          exact .inr ⟨hpc, h.produce hq (fun _ => ⟨by simp, by simp⟩) rfl⟩
        · cases hs
    | enqueue u | tryGet u got =>
        obtain ⟨q, hq, rfl⟩ := Option.map_eq_some_iff.mp hs
        exact .inr ⟨hpc, h.produce hq (fun _ => ⟨by simp, by simp⟩) rfl⟩
  · cases hs

/-- As long as the call goes on it is not at its end. -/
theorem of_run {as : List (Program.Action T)} {w w' : Recorded (Program T) (Hist T)}
    (h : w.now.Searching t) (hpc : w.now.pc = .tryDequeue)
    (hcall : (Program.recorded T).Along (fun w _ _ => w.now.pc = .tryDequeue) w as)
    (hrun : (Program.recorded T).run w as = some w') : w'.now.pc ≠ .flush := by
  refine (hcall.invariant (I := fun w : Recorded (Program T) (Hist T) =>
    w.now.pc = .format ∨ w.now.pc = .tryDequeue ∧ w.now.Searching t) ?_ (.inr ⟨hpc, h⟩) hrun).elim
      (fun hend => by rw [hend]; nofun) fun hend => by rw [hend.1]; nofun
  intro w a w' hI hs hp
  obtain ⟨hs, -⟩ := (Machine.withHistory_step_eq_some _ _).mp hs
  rcases hI with hI | ⟨-, hI⟩
  · rw [hI] at hp
    cases hp
  · exact hI.step hp hs

end Program.Searching

/-- What is in the record's queue is in the lanes. -/
theorem Refines.queued_eq_nil {v : View Tid Unit (ArgumentArray T)} {r : Option (ArgumentArray T)}
    {p : Program T} {s : Sys T} {h : Hist T} (hR : Refines v r p s) (hL : Ledger s h) {t : Tid}
    (hnil : v.laneQueue.lanes t = []) : h.queued t = [] := by
  have hq : s.logger.queue t = [] := by rw [hR.queue, hnil]
  rw [hL.queue] at hq
  exact List.map_eq_nil_iff.mp hq

/-- If the call of `try_dequeue` that starts at `w` comes back with nothing, everything that
had been enqueued at `w` had been dequeued. -/
theorem drained_of_flush {as bs : List (Program.Action T)} {w w' : Recorded (Program T) (Hist T)}
    (hrun : (Program.recorded T).run ⟨.init T mem level blockCount blockIndex value, .init⟩ as =
      some w)
    (hpc : w.now.pc = .tryDequeue) (hload : w.now.queue.scan () = .loadList)
    (hcall : (Program.recorded T).Along (fun w _ _ => w.now.pc = .tryDequeue) w bs)
    (hrun' : (Program.recorded T).run w bs = some w') (hflush : w'.now.pc = .flush) (t : Tid) :
    w.hist.queued t = [] := by
  obtain ⟨as', s, -, hrec, v, r, hR⟩ := Refines.reached hrun
  refine hR.queued_eq_nil (Ledger.of_run hrec) ?_
  by_contra hne
  have hlisted : t ∈ w.now.queue.producerListTail := by
    by_contra hnot
    exact hne (hR.ok.unlisted t hnot).2
  have hstart : w.now.Searching t := {
    inside := fun last hlast => by
      rw [hload] at hlast
      cases hlast
    awaits := ⟨v, r, hR.ok, by rw [ListedQueue.Awaits, hload]; exact ⟨hne, hlisted⟩⟩ }
  exact hstart.of_run hpc hcall hrun' hflush

/-! ## The file -/

/-- The file holds the line of `e`, and holds it once. -/
def Program.LineOnce (w : Recorded (Program T) (Hist T)) (e : Entry T) : Prop :=
  ∃ pre x post, w.hist.turns = pre ++ x :: post ∧ x.entry = e ∧
    (∀ y ∈ pre ++ post, y.entry ≠ e) ∧
    w.now.stream.file = (pre.map Turn.written).flatten ++ x.written ++
      (post.map Turn.written).flatten

theorem Agrees.lineOnce {w : Recorded (Program T) (Hist T)} {s : Sys T} (h : Agrees w.now s)
    (e : Entry T) : World.LineOnce ⟨s, w.hist⟩ e ↔ Program.LineOnce w e := by
  unfold World.LineOnce Program.LineOnce
  rw [h.stream]

/-- After `stop()` the file holds the lines of what was dequeued, in the order in which it was,
and of each thread's messages, in the order of its calls, that is all but what is queued. -/
theorem program_file {as : List (Program.Action T)} {w : Recorded (Program T) (Hist T)}
    (hrun : (Program.recorded T).run ⟨.init T mem level blockCount blockIndex value, .init⟩ as =
      some w)
    (hret : w.now.stopper = .returned) :
    w.now.stream.file = (w.hist.turns.map Turn.written).flatten ∧
      w.hist.turns.map Turn.entry = w.hist.dequeued ∧
      ∀ t, w.hist.accepted t = w.hist.dequeued.filter (·.producer = t) ++ w.hist.queued t := by
  obtain ⟨bs, s, -, hrec, hagrees⟩ := program_refines hrun
  obtain ⟨hdequeued, hfile⟩ := file_of_returned hrec (hagrees.stopper.trans hret)
  rw [hagrees.stream] at hfile
  exact ⟨hfile, hdequeued.symm, (Ledger.of_run hrec).conserves.split⟩

theorem program_file_short :
    ∃ w, (Program.recorded _).run shortStart (shortWrite ++ shortConsume ++ shortStop) = some w ∧
      w.hist.turns ≠ [] ∧ w.now.stream.file = (w.hist.turns.map Turn.written).flatten := by
  obtain ⟨w, hrun, hw⟩ := Option.map_eq_some_iff.mp short_run
  simp only [Prod.mk.injEq] at hw
  obtain ⟨hret, hturns, -⟩ := hw
  exact ⟨w, hrun, List.ne_nil_of_length_pos (by omega), (program_file hrun hret).1⟩

/-- What has been dequeued stays so. -/
theorem Hist.dequeued_prefix_add (h : Hist T) (ev : Event) :
    h.dequeued <+: (h.add ev).dequeued := by
  cases ev with
  | accepted t => simp only [add]; split <;> exact List.prefix_rfl
  | dequeued t =>
      simp only [add]
      split
      · exact List.prefix_append _ _
      · exact List.prefix_rfl
  | formatted mem => simp only [add]; split <;> exact List.prefix_rfl
  | _ => exact List.prefix_rfl

theorem Program.dequeued_prefix {as : List (Program.Action T)}
    {w w' : Recorded (Program T) (Hist T)} (hrun : (Program.recorded T).run w as = some w') :
    w.hist.dequeued <+: w'.hist.dequeued := by
  refine Machine.run_invariant (I := fun u : Recorded (Program T) (Hist T) =>
    w.hist.dequeued <+: u.hist.dequeued) ?_ List.prefix_rfl hrun
  intro u a u' hI hs
  obtain ⟨-, hh⟩ := (Machine.withHistory_step_eq_some _ _).mp hs
  rw [hh]
  exact hI.trans (u.hist.dequeued_prefix_add _)

/-- If a call of `try_dequeue` comes back with nothing, the line of every message that had
been enqueued when it loaded the list is in the file after `stop()`, once. -/
theorem delivered {as bs cs : List (Program.Action T)}
    {w w' w'' : Recorded (Program T) (Hist T)}
    (hrun : (Program.recorded T).run ⟨.init T mem level blockCount blockIndex value, .init⟩ as =
      some w)
    (hpc : w.now.pc = .tryDequeue) (hload : w.now.queue.scan () = .loadList)
    (hcall : (Program.recorded T).Along (fun w _ _ => w.now.pc = .tryDequeue) w bs)
    (hrun' : (Program.recorded T).run w bs = some w') (hflush : w'.now.pc = .flush)
    (hrun'' : (Program.recorded T).run w' cs = some w'') (hret : w''.now.stopper = .returned)
    (t : Tid) : ∀ e ∈ w.hist.accepted t, Program.LineOnce w'' e := by
  intro e he
  obtain ⟨as', s, -, hrec, -⟩ := program_refines hrun
  have hempty := drained_of_flush hrun hpc hload hcall hrun' hflush t
  have hmem : e ∈ w.hist.dequeued := by
    rcases (Ledger.of_run hrec).conserves.mem_accepted_iff.mp he with h | h
    · exact h.1
    · rw [hempty] at h
      cases h
  have hmem'' : e ∈ w''.hist.dequeued :=
    ((Program.dequeued_prefix hrun').trans (Program.dequeued_prefix hrun'')).subset hmem
  have hwhole : (Program.recorded T).run ⟨.init T mem level blockCount blockIndex value, .init⟩
      (as ++ bs ++ cs) = some w'' := by
    rw [Machine.run_append, Machine.run_append, hrun, Option.bind_some, hrun', Option.bind_some,
      hrun'']
  obtain ⟨as'', s'', -, hrec'', hagrees⟩ := program_refines hwhole
  have hL := Ledger.of_run hrec''
  have hacc := hL.conserves.removed_subset hmem''
  refine (hagrees.lineOnce e).mp ?_
  refine (lineOnce_iff_not_mem_queued hrec'' (hagrees.stopper.trans hret) hacc).mpr fun hq => ?_
  exact hL.conserves.not_mem_removed hL.accepted_nodup hq hmem''

theorem Queue.TryDequeue.eq_loadList {ι α : Type} {p : TryDequeue ι α}
    (h : p.ctorIdx = (loadList : TryDequeue ι α).ctorIdx) : p = .loadList := by
  cases p with
  | loadList => rfl
  | _ => cases h

/-- The consumer's last call of `try_dequeue`, and the message that it wrote before. -/
theorem delivered_short :
    ∃ w w' w'' : Recorded (Program shortTraits) (Hist shortTraits),
      (Program.recorded _).run shortStart (shortWrite ++ shortConsume.take 27) = some w ∧
        (Program.recorded _).run w (shortConsume.drop 27) = some w' ∧
        (Program.recorded _).run w' shortStop = some w'' ∧
        w.hist.accepted 1 ≠ [] ∧ ∀ e ∈ w.hist.accepted 1, Program.LineOnce w'' e := by
  have hplaces : ((Program.recorded _).run shortStart (shortWrite ++ shortConsume.take 27)).any
      (fun w => w.now.pc = .tryDequeue ∧
        (w.now.queue.scan ()).ctorIdx =
          (.loadList : Queue.TryDequeue Tid (ArgumentArray shortTraits)).ctorIdx ∧
        w.hist.accepted 1 ≠ [] ∧
        (Program.recorded _).Along (fun w _ _ => w.now.pc = .tryDequeue) w
          (shortConsume.drop 27) ∧
        ((Program.recorded _).run w (shortConsume.drop 27)).any fun w' =>
          w'.now.pc = .flush ∧ ((Program.recorded _).run w' shortStop).any fun w'' =>
            w''.now.stopper = .returned) = true := by decide +kernel
  obtain ⟨w, hrun, hw⟩ := (Option.any_eq_true _ _).mp hplaces
  obtain ⟨hpc, hload, haccepted, hcall, hw⟩ := of_decide_eq_true hw
  obtain ⟨w', hrun', hw'⟩ := (Option.any_eq_true _ _).mp hw
  obtain ⟨hflush, hw'⟩ := of_decide_eq_true hw'
  obtain ⟨w'', hrun'', hw''⟩ := (Option.any_eq_true _ _).mp hw'
  refine ⟨w, w', w'', hrun, hrun', hrun'', haccepted, ?_⟩
  exact delivered hrun hpc (Queue.TryDequeue.eq_loadList hload) hcall hrun' hflush hrun''
    (of_decide_eq_true hw'') 1

end Rtlog
