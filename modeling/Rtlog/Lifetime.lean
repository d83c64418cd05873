/-
# `Rtlog.Lifetime` — when the characters of a C string are read

What `write` stores for a `const char*` is the pointer.  Its characters are read
by `format`, on another thread, at a time the caller does not know; between the
two the caller can overwrite them, and then the line shows the new ones.

So memory reaches the file through one door.  `Sys.reads` is what goes through
it: the strings that the next step of the consumer reads.  `stream_eq_of_reads`
says that there is no other: two runs with the same steps, overwrites apart, in
which every call of `format` reads the same strings, write the same.
-/
import Rtlog.Survival

namespace Rtlog

variable {T : LoggerTraits}

/-! ## What `format` reads of memory -/

/-- Where an argument points, if `operator<<` can follow it. -/
def Argument.pointer? (arg : Argument) : Option Ptr :=
  match arg.any with
  | some ⟨.constCharPtr, p⟩ => some p
  | _ => none

theorem Argument.insert_congr {cap : Nat} {mem mem' : Mem} {arg : Argument}
    (h : ∀ p, arg.pointer? = some p → (mem p).chars = (mem' p).chars) :
    (arg.insert mem : EStateM Exn (FixedBuffer Char cap) Unit) = arg.insert mem' := by
  obtain ⟨any, tag⟩ := arg
  cases tag with
  | cStrType =>
      cases any with
      | none => rfl
      | some x =>
          obtain ⟨t, v⟩ := x
          rcases eq_or_ne t .constCharPtr with rfl | hne
          · unfold Argument.insert insertCase
            simp only [castArg, anyCast_same, pure_bind, h v rfl]
          · -- the cast throws before memory is looked at
            unfold Argument.insert insertCase
            simp only [castArg, anyCast_of_ne v hne]
            rfl
  | _ => rfl

namespace CFormatter

theorem formatLoop_congr_mem {mem mem' : Mem} : ∀ {slots : List Argument},
    (∀ a ∈ slots, ∀ p, a.pointer? = some p → (mem p).chars = (mem' p).chars) →
      (formatLoop mem slots : EStateM Exn (CFormatter T) _) = formatLoop mem' slots := by
  intro slots
  induction slots with
  | nil => intro _; rfl
  | cons a slots ih =>
      intro h
      rw [formatLoop, formatLoop, Argument.insert_congr (h a List.mem_cons_self),
        ih fun b hb => h b (List.mem_cons_of_mem _ hb)]

/-- `format` reads memory where the slots up to the stop point, and nowhere
else. -/
theorem format_congr_mem {mem mem' : Mem} {array : ArgumentArray T}
    (h : ∀ a ∈ upToStop array.slots, ∀ p, a.pointer? = some p → (mem p).chars = (mem' p).chars)
    (f : CFormatter T) : format mem array f = format mem' array f := by
  have hloop : (formatLoop mem array.slots : EStateM Exn (CFormatter T) _) =
      formatLoop mem' array.slots := by
    rw [← formatLoop_upToStop, formatLoop_congr_mem h, formatLoop_upToStop]
  show formatLoop mem array.slots FixedBuffer.empty = formatLoop mem' array.slots FixedBuffer.empty
  rw [hloop]

end CFormatter

/-! ## Overwriting is invisible until it is read -/

/-- Every step but an overwrite. -/
def Action.visible : Action T → Bool
  | .overwrite _ _ => false
  | _ => true

namespace Sys

/-- The strings that the next step of the consumer reads. -/
def reads (s : Sys T) : List (List Char) :=
  match s.pc with
  | .format =>
      ((CFormatter.upToStop s.argumentArray.slots).filterMap Argument.pointer?).map
        fun p => (s.mem p).chars
  | _ => []

/-- What a step reads of memory. -/
def readsOf (s : Sys T) : Action T → List (List Char)
  | .consume _ => s.reads
  | _ => []

/-- The same state with another memory. -/
def withMem (m : Mem) (s : Sys T) : Sys T := { s with mem := m }

/-- The call of `format` is the same in two memories that read the same. -/
theorem format_withMem {s : Sys T} (m : Mem) (hpc : s.pc = .format)
    (hr : s.reads = (s.withMem m).reads) :
    CFormatter.format m s.argumentArray s.formatter =
      CFormatter.format s.mem s.argumentArray s.formatter := by
  refine CFormatter.format_congr_mem ?_ _
  intro a ha p hp
  have hmem : p ∈ (CFormatter.upToStop s.argumentArray.slots).filterMap Argument.pointer? :=
    List.mem_filterMap.mpr ⟨a, ha, hp⟩
  unfold reads at hr
  rw [hpc, show (s.withMem m).pc = .format from hpc] at hr
  exact (List.map_inj_left.mp hr p hmem).symm

/-- A step does the same in another memory if it reads the same. -/
theorem Step.withMem {s s' : Sys T} {a : Action T} {ev : Event} (hs : Step s a ev s') (m : Mem)
    (hv : a.visible = true) (hr : s.readsOf a = (s.withMem m).readsOf a) :
    ∃ ev', Step (s.withMem m) a ev' (s'.withMem m) := by
  cases hs with
  | setLevel l halive => exact ⟨_, .setLevel l halive⟩
  | overwrite p str _ => cases hv
  | call t c alloc halive ht => exact ⟨_, .call t c alloc halive ht⟩
  | refuse t halive ht => exact ⟨_, .refuse t halive ht⟩
  | accept t halive ht => exact ⟨_, .accept t halive ht⟩
  | testStop ch hpc => exact ⟨_, .testStop ch hpc⟩
  | dequeueNone ch hpc hl => exact ⟨_, .dequeueNone ch hpc hl⟩
  | dequeue ch hpc hl hq => exact ⟨_, .dequeue ch hpc hl hq⟩
  | format ch hpc hf => exact ⟨_, .format ch hpc ((format_withMem m hpc hr).trans hf)⟩
  | formatThrow ch hpc hf => exact ⟨_, .formatThrow ch hpc ((format_withMem m hpc hr).trans hf)⟩
  | insert ch hpc => exact ⟨_, .insert ch hpc⟩
  | flush ch hpc => exact ⟨_, .flush ch hpc⟩
  | sleep ch hpc => exact ⟨_, .sleep ch hpc⟩
  | finalFlush ch hpc => exact ⟨_, .finalFlush ch hpc⟩
  | stopCall halive hst => exact ⟨_, .stopCall halive hst⟩
  | stopStore halive hst => exact ⟨_, .stopStore halive hst⟩
  | stopJoin hpc hst => exact ⟨_, .stopJoin hpc hst⟩
  | stopClose halive hst => exact ⟨_, .stopClose halive hst⟩

/-- An overwrite changes nothing else. -/
theorem withMem_of_overwrite {s s' : Sys T} {p : Ptr} {str : CString}
    (hs : s.step (.overwrite p str) = some s') (m : Mem) : s'.withMem m = s.withMem m := by
  cases Step.of_step hs
  rfl

end Sys

/-- Two runs with the same steps, overwrites apart, that read the same strings
end in states that differ in memory at most. -/
theorem withMem_eq_of_reads {as bs : List (Action T)} {s t s' t' : Sys T}
    (hsteps : as.filter Action.visible = bs.filter Action.visible)
    (hreads : (machine T).views Action.visible Sys.readsOf s as =
      (machine T).views Action.visible Sys.readsOf t bs)
    (hs : (machine T).run s as = some s') (ht : (machine T).run t bs = some t')
    (hst : s.withMem t.mem = t) : s'.withMem t'.mem = t' := by
  refine Machine.noninterference (R := fun s t => s.withMem t.mem = t) ?_ ?_ ?_ hsteps hreads
    hs ht hst
  · intro s s' t a hv hstep hR
    cases a with
    | overwrite p str => exact (Sys.withMem_of_overwrite hstep _).trans hR
    | _ => cases hv
  · intro s t t' a hv hstep hR
    cases a with
    | overwrite p str =>
        calc s.withMem t'.mem = t.withMem t'.mem := by rw [← hR]; rfl
          _ = t'.withMem t'.mem := (Sys.withMem_of_overwrite hstep _).symm
    | _ => cases hv
  · intro s s' t t' a hv hr hs ht hR
    rw [← hR] at hr
    obtain ⟨ev, hstep⟩ := (Sys.Step.of_step hs).withMem t.mem hv hr
    have hboth := (Sys.step_eq_some_iff.mpr hstep).1
    rw [hR] at hboth
    cases hboth.symm.trans ht
    rfl

/-- Two runs with the same steps, overwrites apart, that read the same strings
whenever a message is formatted write the same; and what is written of each
message is its text as memory was at that moment. -/
theorem stream_eq_of_reads {mem : Mem} {level : LogLevel} {as bs : List (Action T)}
    {w v : World T} (hw : (recorded T).run (.init T mem level) as = some w)
    (hv : (recorded T).run (.init T mem level) bs = some v)
    (hsteps : as.filter Action.visible = bs.filter Action.visible)
    (hreads : (machine T).views Action.visible Sys.readsOf (.init T mem level) as =
      (machine T).views Action.visible Sys.readsOf (.init T mem level) bs) :
    w.now.stream = v.now.stream ∧
    (w.now.alive = true → w.now.pc.inHand = false →
      w.hist.dequeued = w.hist.turns.map Turn.entry ∧
      w.now.stream.contents =
        (w.hist.turns.map fun x => beforeNul (x.entry.call.msg.rendered x.mem)).flatten) := by
  constructor
  · have hs := Machine.withHistory_run_now _ _ hw
    have ht := Machine.withHistory_run_now _ _ hv
    have hmem := withMem_eq_of_reads hsteps hreads hs ht rfl
    rw [← hmem]
    rfl
  · intro halive hpc
    exact (Written.of_run hw).contents_of_not_inHand halive hpc

/-! ## A string that changes in the queue -/

/-- A string of one character. -/
def oneChar (c : Char) : CString := .ofChars [c]

theorem stream_eq_of_reads_served : ∃ w v,
    (recorded loggerTraits).run (.init _ .blank .info) (served (strCall 1)) = some w ∧
    (recorded loggerTraits).run (.init _ .blank .info)
      (.overwrite 2 (oneChar 'x') :: served (strCall 1)) = some v ∧
    w.now.stream = v.now.stream := by
  obtain ⟨w, hw⟩ := Option.isSome_iff_exists.mp (show ((recorded loggerTraits).run
    (.init _ .blank .info) (served (strCall 1))).isSome = true by decide +kernel)
  obtain ⟨v, hv⟩ := Option.isSome_iff_exists.mp (show ((recorded loggerTraits).run
    (.init _ .blank .info) (.overwrite 2 (oneChar 'x') :: served (strCall 1))).isSome = true by
      decide +kernel)
  exact ⟨w, v, hw, hv, (stream_eq_of_reads hw hv rfl (by decide +kernel)).1⟩

/-- The message in hand, formatted after `m` has been put in memory. -/
theorem contents_of_overwrite {w : World T} (hpc : w.now.pc = .format) {e : Entry T}
    (harray : w.now.argumentArray = e.array) (p : Ptr) (str : CString)
    (hF : e.call.msg.Formats T (Function.update w.now.mem p str)) :
    ∃ v, (recorded T).run w
        [.overwrite p str, .consume ⟨none, 0⟩, .consume ⟨none, 0⟩] = some v ∧
      v.now.stream.contents = w.now.stream.contents ++
        beforeNul (e.call.msg.rendered (Function.update w.now.mem p str)) := by
  obtain ⟨w', v, hs, -, hs', -, hc, -⟩ := World.exists_turn
    (w := ⟨{ w.now with mem := Function.update w.now.mem p str }, w.hist⟩) hpc harray hF
      ⟨none, 0⟩ ⟨none, 0⟩
  refine ⟨v, World.run_cons (.overwrite p str (Sys.alive_of_pc hpc rfl)) ?_, hc⟩
  exact (Machine.run_cons_eq_some _).mpr ⟨w', hs, (Machine.run_cons_eq_some _).mpr ⟨v, hs', rfl⟩⟩

theorem not_asAtCall :
    ¬ ∀ (T : LoggerTraits) (mem : Mem) (level : LogLevel) (pre post : List (Action T)) (p : Ptr)
      (str : CString) (u s t : Sys T), (machine T).run (.init T mem level) pre = some u →
        (∀ i, ∃ r, u.producers i = .idle r) → (∀ a ∈ post, ∃ ch, a = .consume ch) →
          (machine T).run u post = some s → (machine T).run u (.overwrite p str :: post) = some t →
            s.stream.contents = t.stream.contents := by
  intro h
  obtain ⟨w, hrun, hpc, hmem, harray, hidle, -⟩ :=
    exists_run_fetched .blank (strCall 1) (fits_strCall 1)
  obtain ⟨w', v, hs, -, hs', -, hcv, -⟩ := World.exists_turn hpc harray
    (by rw [hmem]; exact (formats_iff_of_plain (plain_strCall 1) _).mpr (by decide))
    ⟨none, 0⟩ ⟨none, 0⟩
  obtain ⟨v', hv', hcv'⟩ := contents_of_overwrite hpc harray 1 (oneChar 'x')
    (by rw [hmem]; exact (formats_iff_of_plain (plain_strCall 1) _).mpr (by decide))
  have hv : (recorded loggerTraits).run w [.consume ⟨none, 0⟩, .consume ⟨none, 0⟩] = some v :=
    (Machine.run_cons_eq_some _).mpr ⟨w', hs, (Machine.run_cons_eq_some _).mpr ⟨v, hs', rfl⟩⟩
  have heq := h _ _ _ _ [.consume ⟨none, 0⟩, .consume ⟨none, 0⟩] 1 (oneChar 'x') _ _ _
    (Machine.withHistory_run_now _ _ hrun) hidle
    (by simp) (Machine.withHistory_run_now _ _ hv) (Machine.withHistory_run_now _ _ hv')
  rw [hcv, hcv', hmem] at heq
  exact absurd (List.append_cancel_left heq) (by decide)

end Rtlog
