/-
# `Rtlog.Threshold` — which messages the level lets through

The two overloads of `write` are two programs, and a build calls one of them:
`USE_TIMEPOINT` selects the one with a time point.  That one does not read the
level.  Two questions are asked of the pair.

* Over runs of the threads: does a call below the threshold return at once, and
  is everything in the queue at or above the threshold its call has seen?
* Over sequences of log statements: does the program enqueue the same messages
  in both builds, the time stamp apart?

Both have the same answer: as long as no call with a time point is below the
threshold in force (`honoured_iff_along`, `sameInBothBuilds_iff`).  The second
needs in addition that no statement has so many arguments that its time stamp
does not fit.
-/
import Rtlog.History

namespace Rtlog

variable {T : LoggerTraits}

/-! ## Runs -/

/-- A call below the threshold returns true at once and leaves the queue. -/
def HonoursLevel (w : World T) (a : Action T) (w' : World T) : Prop :=
  match a with
  | .call t c _ => c.msg.level.underlying < w.now.logger.level →
      w'.now.producers t = .idle (some (.returned true)) ∧
        w'.now.logger.queue = w.now.logger.queue
  | _ => True

/-- A call with a time point is not below the threshold. -/
def TimedAbove (w : World T) (a : Action T) (_ : World T) : Prop :=
  match a with
  | .call _ c _ => c.msg.time.isSome = true → w.now.logger.level ≤ c.msg.level.underlying
  | _ => True

/-- What was enqueued was at or above the threshold its call has seen. -/
def Hist.AtLevel (h : Hist T) : Prop :=
  ∀ t, ∀ e ∈ h.accepted t, e.call.threshold ≤ e.call.msg.level.underlying

theorem Producer.ofPrepared_eq_idle_true {r : CLogger.Prepared T} :
    Producer.ofPrepared r = .idle (some (.returned true)) ↔ r = .filtered := by
  constructor
  · intro h
    cases r with
    | filtered => rfl
    | full p => cases h
    | failed fault => cases fault <;> cases h
  · rintro rfl
    rfl

/-- One step honours the level exactly if it is no call with a time point below
it. -/
theorem honoursLevel_iff {w w' : World T} {a : Action T}
    (hs : (recorded T).step w a = some w') : HonoursLevel w a w' ↔ TimedAbove w a w' := by
  obtain ⟨ev, hstep, -⟩ := World.step_eq_some_iff.mp hs
  obtain ⟨s, h⟩ := w
  obtain ⟨s', h'⟩ := w'
  cases hstep with
  | call t c alloc _ _ =>
      show (_ → Function.update _ t _ t = _ ∧ _) ↔ (_ → _)
      rw [Function.update_self, Producer.ofPrepared_eq_idle_true,
        CLogger.prepare_eq_filtered]
      constructor
      · intro hhon htime
        refine UInt32.not_lt.mp ?_
        intro hlt
        rw [(hhon hlt).1.1] at htime
        cases htime
      · intro habove hlt
        refine ⟨⟨?_, hlt⟩, rfl⟩
        cases ht : c.msg.time with
        | none => rfl
        | some time => exact absurd (habove (by rw [ht]; rfl)) (UInt32.not_le.mpr hlt)
  | _ => exact Iff.rfl

/-- What a thread is about to enqueue is at or above the threshold it has seen. -/
def OffersAtLevel (s : Sys T) (h : Hist T) : Prop :=
  ∀ t p c, s.producers t = .offering p → h.calls t = some c →
    c.threshold ≤ c.msg.level.underlying

theorem OffersAtLevel.of_update {s : Sys T} {h : Hist T} (hO : OffersAtLevel s h) {t : Tid}
    {r : Option WriteResult} {s' : Sys T} {h' : Hist T}
    (hp : s'.producers = Function.update s.producers t (.idle r)) (hc : h'.calls = h.calls) :
    OffersAtLevel s' h' := by
  intro u p c hu hcu
  rw [hp] at hu
  rw [hc] at hcu
  rcases eq_or_ne u t with rfl | hne
  · rw [Function.update_self] at hu
    cases hu
  · rw [Function.update_of_ne hne] at hu
    exact hO u p c hu hcu

theorem offersAtLevel_step {s s' : Sys T} {h : Hist T} {a : Action T} {ev : Event}
    (hL : Ledger s h) (hO : OffersAtLevel s h) (hA : h.AtLevel) (hs : Sys.Step s a ev s')
    (hP : TimedAbove ⟨s, h⟩ a ⟨s', h.add ev⟩) :
    OffersAtLevel s' (h.add ev) ∧ (h.add ev).AtLevel := by
  cases hs with
  | call t c alloc _ _ =>
      refine ⟨?_, hA⟩
      intro u p c' hu hc'
      rcases eq_or_ne u t with rfl | hne
      · simp only [Hist.add, Function.update_self, Option.some.injEq] at hu hc'
        subst hc'
        obtain ⟨hlevel, -⟩ := CLogger.prepare_eq_full.mp (Producer.ofPrepared_eq_offering.mp hu)
        cases ht : c.msg.time with
        | none => exact hlevel ht
        | some time => exact hP (by rw [ht]; rfl)
      · simp only [Hist.add, Function.update_of_ne hne] at hu hc'
        exact hO u p c' hu hc'
  | refuse t _ _ => exact ⟨hO.of_update rfl rfl, hA⟩
  | accept t _ ht =>
      obtain ⟨c, hc, -, fits, rfl⟩ := hL.exists_offered ht
      rw [Hist.add_accepted hc fits]
      refine ⟨hO.of_update rfl rfl, ?_⟩
      intro u e he
      rcases Lanes.mem_push.mp he with he | ⟨-, rfl⟩
      · exact hA u e he
      · exact hO t _ c ht hc
  | dequeue ch _ _ hq =>
      obtain ⟨e, es, hes, rfl, rfl⟩ := hL.exists_head hq
      rw [Hist.add_dequeued hes]
      exact ⟨hO, hA⟩
  | format ch _ _ | formatThrow ch _ _ =>
      obtain ⟨turns, hadd⟩ := h.exists_add_formatted s.mem
      rw [hadd]
      exact ⟨hO, hA⟩
  | _ => exact ⟨hO, hA⟩

section Run

variable {mem : Mem} {level : LogLevel} {as : List (Action T)} {w : World T}

theorem atLevel_of_along (hrun : (recorded T).run (.init T mem level) as = some w)
    (hP : (recorded T).Along TimedAbove (.init T mem level) as) : w.hist.AtLevel := by
  refine (World.along_invariant (I := fun s h => Ledger s h ∧ OffersAtLevel s h ∧ h.AtLevel)
    ?_ hP ⟨.init mem level, ?_, ?_⟩ hrun).2.2
  · intro s a ev s' h hJ hs hp
    obtain ⟨hL, hO, hA⟩ := hJ
    exact ⟨hL.step hs, offersAtLevel_step hL hO hA hs hp⟩
  · intro t p c h
    cases h
  · intro t e h
    exact absurd h List.not_mem_nil

/-- A run has honoured the level, in every call and in what it has enqueued,
exactly if no call with a time point was below it. -/
theorem honoured_iff_along (hrun : (recorded T).run (.init T mem level) as = some w) :
    ((recorded T).Along HonoursLevel (.init T mem level) as ∧ w.hist.AtLevel) ↔
      (recorded T).Along TimedAbove (.init T mem level) as := by
  constructor
  · rintro ⟨hhon, -⟩
    exact hhon.imp fun _ _ _ hs => (honoursLevel_iff hs).mp
  · intro hP
    exact ⟨hP.imp fun _ _ _ hs => (honoursLevel_iff hs).mpr, atLevel_of_along hrun hP⟩

end Run

/-! ## Two builds -/

/-- A statement of some thread.  A log statement is the message it passes in
either build, with what the clock says; `m.time` is not used. -/
inductive Stmt where
  | setLevel (l : LogLevel)
  | log (t : Tid) (m : Message) (now : BitVec 64)

/-- What `RTLOG` passes to `write`, with and without `USE_TIMEPOINT`. -/
def Message.stamped (useTimepoint : Bool) (now : BitVec 64) (m : Message) : Message :=
  { m with time := if useTimepoint then some now else none }

/-- What a sequence of statements enqueues on a queue that takes everything, with
`level` in force before it; `none` if a statement leaves its array. -/
def enqueues (T : LoggerTraits) (useTimepoint : Bool) :
    UInt32 → List Stmt → Option (List (Tid × ArgumentArray T))
  | _, [] => some []
  | _, .setLevel l :: stmts => enqueues T useTimepoint l.underlying stmts
  | level, .log t m now :: stmts =>
      match CLogger.prepare (fun _ => true) level (m.stamped useTimepoint now) with
      | .filtered => enqueues T useTimepoint level stmts
      | .full p => (enqueues T useTimepoint level stmts).map ((t, p) :: ·)
      | .failed _ => none

/-- The first array is the second behind a time stamp. -/
def SameButStamp (x y : Tid × ArgumentArray T) : Prop :=
  x.1 = y.1 ∧ ∃ now, x.2.slots ++ [.default] = .store (Message.timeValue now) :: y.2.slots

/-- Both builds enqueue the same messages in the same order, the stamp apart. -/
def SameInBothBuilds (T : LoggerTraits) (level : UInt32) (stmts : List Stmt) : Prop :=
  ∃ xs ys, enqueues T true level stmts = some xs ∧ enqueues T false level stmts = some ys ∧
    List.Forall₂ SameButStamp xs ys

/-- Every log statement is at or above the level in force, and has room for its
time stamp. -/
def LogsAbove (T : LoggerTraits) : UInt32 → List Stmt → Prop
  | _, [] => True
  | _, .setLevel l :: stmts => LogsAbove T l.underlying stmts
  | level, .log _ m now :: stmts =>
      (level ≤ m.level.underlying ∧ (m.stamped true now).elements.length ≤ T.paramSize) ∧
        LogsAbove T level stmts

section Builds

variable {level : UInt32} {t : Tid} {m : Message} {now : BitVec 64} {stmts : List Stmt}

theorem enqueues_true (fits : (m.stamped true now).elements.length ≤ T.paramSize) :
    enqueues T true level (.log t m now :: stmts) =
      (enqueues T true level stmts).map
        ((t, .ofValues (m.stamped true now).elements fits) :: ·) := by
  have hp : CLogger.prepare (fun _ => true) level (m.stamped true now) =
      .full (ArgumentArray.ofValues (m.stamped true now).elements fits) :=
    CLogger.prepare_eq_full.mpr ⟨(by intro h; cases h), fun _ _ => rfl, fits, rfl⟩
  rw [enqueues, hp]

theorem enqueues_true_overrun (h : T.paramSize < (m.stamped true now).elements.length) :
    enqueues T true level (.log t m now :: stmts) = none := by
  have hp : (CLogger.prepare (fun _ => true) level (m.stamped true now) : CLogger.Prepared T) =
      .failed .outOfBounds :=
    CLogger.prepare_outOfBounds (by intro ht; cases ht) (fun _ => rfl) h
  rw [enqueues, hp]

theorem enqueues_false_above (hl : level ≤ m.level.underlying)
    (fits : (m.stamped false now).elements.length ≤ T.paramSize) :
    enqueues T false level (.log t m now :: stmts) =
      (enqueues T false level stmts).map
        ((t, .ofValues (m.stamped false now).elements fits) :: ·) := by
  rw [enqueues, CLogger.prepare_of_fits (m.stamped false now) hl fits]

theorem enqueues_false_below (hl : m.level.underlying < level) :
    enqueues T false level (.log t m now :: stmts) = enqueues T false level stmts := by
  have hp : (CLogger.prepare (fun _ => true) level (m.stamped false now) : CLogger.Prepared T) =
      .filtered := CLogger.prepare_eq_filtered.mpr ⟨rfl, hl⟩
  rw [enqueues, hp]

end Builds

/-- An array with room for one more element, and the same array with it. -/
theorem slots_ofValues_cons {v : Value} {vs : List Value} (h : (v :: vs).length ≤ T.paramSize)
    (h' : vs.length ≤ T.paramSize) :
    (ArgumentArray.ofValues (v :: vs) h).slots ++ [.default] =
      .store v :: (ArgumentArray.ofValues vs h').slots := by
  have hlen : T.paramSize - vs.length = T.paramSize - (v :: vs).length + 1 := by
    rw [List.length_cons] at h ⊢
    omega
  show (v :: vs).map Argument.store ++ List.replicate _ .default ++ [.default] =
    Argument.store v :: (vs.map Argument.store ++ List.replicate (T.paramSize - vs.length) .default)
  rw [hlen, List.replicate_succ']
  simp

/-- The build without time points never enqueues more. -/
theorem length_le_of_enqueues : ∀ {stmts : List Stmt} {level : UInt32}
    {xs ys : List (Tid × ArgumentArray T)}, enqueues T true level stmts = some xs →
      enqueues T false level stmts = some ys → ys.length ≤ xs.length := by
  intro stmts
  induction stmts with
  | nil =>
      intro level xs ys hx hy
      cases hx
      cases hy
      exact Nat.le_refl _
  | cons stmt stmts ih =>
      intro level xs ys hx hy
      cases stmt with
      | setLevel l => exact ih hx hy
      | log t m now =>
          rcases Nat.lt_or_ge T.paramSize (m.stamped true now).elements.length with hover | fits
          · rw [enqueues_true_overrun hover] at hx
            cases hx
          · rw [enqueues_true fits] at hx
            obtain ⟨xs, hxs, rfl⟩ := Option.map_eq_some_iff.mp hx
            rw [List.length_cons]
            rcases UInt32.lt_or_le m.level.underlying level with hl | hl
            · rw [enqueues_false_below hl] at hy
              exact Nat.le_succ_of_le (ih hxs hy)
            · rw [enqueues_false_above hl (Nat.le_of_succ_le fits)] at hy
              obtain ⟨ys, hys, rfl⟩ := Option.map_eq_some_iff.mp hy
              exact Nat.succ_le_succ (ih hxs hys)

/-- The two builds agree exactly if every statement is at or above the level in
force and has room for its time stamp. -/
theorem sameInBothBuilds_iff : ∀ {stmts : List Stmt} {level : UInt32},
    SameInBothBuilds T level stmts ↔ LogsAbove T level stmts := by
  intro stmts
  induction stmts with
  | nil =>
      intro level
      exact iff_of_true ⟨[], [], rfl, rfl, .nil⟩ trivial
  | cons stmt stmts ih =>
      intro level
      cases stmt with
      | setLevel l => exact ih
      | log t m now =>
          rw [LogsAbove, ← ih]
          constructor
          · rintro ⟨xs, ys, hx, hy, hsame⟩
            rcases Nat.lt_or_ge T.paramSize (m.stamped true now).elements.length with hover | fits
            · rw [enqueues_true_overrun hover] at hx
              cases hx
            · rw [enqueues_true fits] at hx
              obtain ⟨xs, hxs, rfl⟩ := Option.map_eq_some_iff.mp hx
              rcases UInt32.lt_or_le m.level.underlying level with hl | hl
              · -- the build with time points enqueues one message more
                rw [enqueues_false_below hl] at hy
                have hlen := hsame.length_eq
                have hle := length_le_of_enqueues hxs hy
                rw [List.length_cons] at hlen
                omega
              · rw [enqueues_false_above hl (Nat.le_of_succ_le fits)] at hy
                obtain ⟨ys, hys, rfl⟩ := Option.map_eq_some_iff.mp hy
                exact ⟨⟨hl, fits⟩, xs, ys, hxs, hys, (List.forall₂_cons.mp hsame).2⟩
          · rintro ⟨⟨hl, fits⟩, xs, ys, hx, hy, hsame⟩
            have fits' : (m.stamped false now).elements.length ≤ T.paramSize :=
              Nat.le_of_succ_le fits
            refine ⟨(t, .ofValues (m.stamped true now).elements fits) :: xs,
              (t, .ofValues (m.stamped false now).elements fits') :: ys, ?_, ?_,
              .cons ⟨rfl, now, slots_ofValues_cons fits fits'⟩ hsame⟩
            · rw [enqueues_true fits, hx]
              rfl
            · rw [enqueues_false_above hl fits', hy]
              rfl

/-! ## Both answers -/

/-- Runs honour the level, and the two builds agree, exactly as long as no call
with a time point is below the level in force; for the second a statement must
also have room for its time stamp. -/
theorem level_honoured_iff {mem : Mem} {level : LogLevel} {as : List (Action T)} {w : World T}
    (hrun : (recorded T).run (.init T mem level) as = some w) (stmts : List Stmt) :
    (((recorded T).Along HonoursLevel (.init T mem level) as ∧ w.hist.AtLevel) ↔
      (recorded T).Along TimedAbove (.init T mem level) as) ∧
    (SameInBothBuilds T level.underlying stmts ↔ LogsAbove T level.underlying stmts) :=
  ⟨honoured_iff_along hrun, sameInBothBuilds_iff⟩

/-- `LOG_INFO(42)` with a time point. -/
def timedCall : Call loggerTraits :=
  .bare ⟨some 0, .ofInt .int32 1, .info, 0, .ofInt .int32 42, []⟩ rfl

/-- Thread 0 makes the call. -/
def timedLog : List (Action loggerTraits) := [.call 0 timedCall fun _ => true, .enqueue 0 true]

theorem level_honoured_iff_info : ∃ w,
    (recorded loggerTraits).run (.init _ .blank .info) timedLog = some w ∧ w.hist.AtLevel ∧
    SameInBothBuilds loggerTraits 0 [.log 0 timedCall.msg 0] := by
  obtain ⟨w, hrun⟩ : ∃ w, (recorded loggerTraits).run (.init _ .blank .info) timedLog = some w :=
    ⟨_, rfl⟩
  obtain ⟨hiff, hsame⟩ := level_honoured_iff hrun [.log 0 timedCall.msg 0]
  refine ⟨w, hrun, (hiff.mpr ?_).2, hsame.mpr ⟨⟨by decide, by decide⟩, trivial⟩⟩
  exact fun _ _ => ⟨fun _ => by decide, fun _ _ => ⟨trivial, trivial⟩⟩

theorem not_level_honoured :
    ¬ ∀ (T : LoggerTraits) (mem : Mem) (level : LogLevel) (as : List (Action T)) (w : World T),
      (recorded T).run (.init T mem level) as = some w → w.hist.AtLevel := by
  intro h
  obtain ⟨w, hrun, e, he, hlt⟩ : ∃ w,
      (recorded loggerTraits).run (.init _ .blank .crit) timedLog = some w ∧
      ∃ e ∈ w.hist.accepted 0, e.call.msg.level.underlying < e.call.threshold :=
    ⟨_, rfl, _, List.mem_singleton_self _, by decide⟩
  exact UInt32.not_le.mpr hlt (h _ _ _ _ w hrun 0 e he)

end Rtlog
