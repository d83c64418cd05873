/-
# `Rtlog.History` — what a run did, written down

The state of the machine forgets: a dequeued message is gone, a written line is
characters.  `Hist` keeps what the statements about whole runs speak of, and is
folded from the events of the run:

    accepted    per producer, the messages `try_enqueue` took, in order
    queued      per producer, those of them still in the queue
    dequeued    the messages `try_dequeue` returned, in order
    turns       the messages `format` was called for, with the memory it read
    beforeStop  `accepted` when `stop()` was called

Two invariants connect it to the state.  `Ledger` is about the producers' side:
the queue holds the arrays of `queued`, and nothing is lost or doubled between
`accepted`, `dequeued` and `queued`.  `Written` is about the consumer's: what is
dequeued has been formatted, and what is formatted has been written, up to the
one message the consumer has in hand.  Neither assumes anything about the
messages; whether they can be formatted is `Written.sound`.
-/
import Rtlog.EndToEnd
import Rtlog.System

namespace Rtlog

variable {T : LoggerTraits}

/-! ## The record -/

/-- A message that was enqueued.  `seq` counts those of its producer. -/
structure Entry (T : LoggerTraits) where
  producer : Tid
  seq : Nat
  call : CallRecord
  fits : call.msg.elements.length ≤ T.paramSize

namespace Entry

/-- What the queue holds for the message. -/
def array (e : Entry T) : ArgumentArray T := .ofValues e.call.msg.elements e.fits

/-- The next entry of `t`, for a call that has filled its array. -/
def ofCall? (t : Tid) (seq : Nat) (c : CallRecord) : Option (Entry T) :=
  if fits : c.msg.elements.length ≤ T.paramSize then some ⟨t, seq, c, fits⟩ else none

theorem ofCall?_of_fits {c : CallRecord} (t : Tid) (seq : Nat)
    (fits : c.msg.elements.length ≤ T.paramSize) :
    ofCall? t seq c = some (⟨t, seq, c, fits⟩ : Entry T) := dif_pos fits

end Entry

/-- One call of `format`: for which message, and what memory was. -/
structure Turn (T : LoggerTraits) where
  entry : Entry T
  mem : Mem

namespace Turn

/-- The text of the message. -/
def rendered (x : Turn T) : List Char := x.entry.call.msg.rendered x.mem

/-- What inserting that text into the stream writes. -/
def written (x : Turn T) : List Char := beforeNul x.rendered

def Formats (x : Turn T) : Prop := x.entry.call.msg.Formats T x.mem

end Turn

structure Hist (T : LoggerTraits) where
  calls : Tid → Option CallRecord
  accepted : Lanes Tid (Entry T)
  queued : Lanes Tid (Entry T)
  dequeued : List (Entry T)
  turns : List (Turn T)
  beforeStop : Lanes Tid (Entry T)

namespace Hist

def init : Hist T := ⟨fun _ => none, .empty, .empty, [], [], .empty⟩

/-- Everything the turns have written. -/
def text (h : Hist T) : List Char := (h.turns.map Turn.written).flatten

/-- Write down an event. -/
def add (h : Hist T) : Event → Hist T
  | .silent => h
  | .called t c => { h with calls := Function.update h.calls t (some c) }
  | .accepted t =>
      match (h.calls t).bind (Entry.ofCall? t (h.accepted t).length) with
      | some e => { h with accepted := h.accepted.push t e, queued := h.queued.push t e }
      | none => h
  | .dequeued t =>
      match h.queued.pop? t with
      | some (e, queued) => { h with queued := queued, dequeued := h.dequeued ++ [e] }
      | none => h
  | .formatted mem =>
      match h.dequeued.getLast? with
      | some e => { h with turns := h.turns ++ [⟨e, mem⟩] }
      | none => h
  | .stopping => { h with beforeStop := h.accepted }

theorem add_accepted {h : Hist T} {t : Tid} {c : CallRecord} (hc : h.calls t = some c)
    (fits : c.msg.elements.length ≤ T.paramSize) :
    h.add (.accepted t) = { h with
      accepted := h.accepted.push t ⟨t, (h.accepted t).length, c, fits⟩
      queued := h.queued.push t ⟨t, (h.accepted t).length, c, fits⟩ } := by
  simp only [add, hc, Option.bind_some, Entry.ofCall?_of_fits t _ fits]

theorem add_dequeued {h : Hist T} {t : Tid} {e : Entry T} {rest : List (Entry T)}
    (hq : h.queued t = e :: rest) :
    h.add (.dequeued t) = { h with
      queued := Function.update h.queued t rest
      dequeued := h.dequeued ++ [e] } := by
  simp only [add, Lanes.pop?_eq_some.mpr ⟨rest, hq, rfl⟩]

theorem add_formatted {h : Hist T} {es : List (Entry T)} {e : Entry T} (mem : Mem)
    (hd : h.dequeued = es ++ [e]) :
    h.add (.formatted mem) = { h with turns := h.turns ++ [⟨e, mem⟩] } := by
  simp only [add, hd, List.getLast?_append, List.getLast?_singleton, Option.some_or]

theorem exists_add_accepted (h : Hist T) (t : Tid) :
    ∃ accepted queued,
      h.add (.accepted t) = { h with accepted := accepted, queued := queued } := by
  simp only [add]
  split
  · exact ⟨_, _, rfl⟩
  · exact ⟨_, _, rfl⟩

theorem exists_add_formatted (h : Hist T) (mem : Mem) :
    ∃ turns, h.add (.formatted mem) = { h with turns := turns } := by
  simp only [add]
  split
  · exact ⟨_, rfl⟩
  · exact ⟨_, rfl⟩

theorem accepted_prefix_add (h : Hist T) (ev : Event) (t : Tid) :
    h.accepted t <+: (h.add ev).accepted t := by
  cases ev with
  | accepted u =>
      simp only [add]
      split
      · exact Lanes.prefix_push _ _ _ _
      · exact List.prefix_rfl
  | dequeued u => simp only [add]; split <;> exact List.prefix_rfl
  | formatted mem => simp only [add]; split <;> exact List.prefix_rfl
  | _ => exact List.prefix_rfl

theorem add_beforeStop (h : Hist T) {ev : Event} (hev : ev ≠ .stopping) :
    (h.add ev).beforeStop = h.beforeStop := by
  cases ev with
  | accepted t | dequeued t | formatted mem => simp only [add]; split <;> rfl
  | stopping => exact absurd rfl hev
  | _ => rfl

theorem text_append (h : Hist T) (x : Turn T) :
    ({ h with turns := h.turns ++ [x] } : Hist T).text = h.text ++ x.written := by
  simp [text]

end Hist

/-! ## Recorded runs -/

/-- A state of the program and what has happened so far. -/
abbrev World (T : LoggerTraits) := Recorded (Sys T) (Hist T)

/-- The program, writing down its events. -/
def recorded (T : LoggerTraits) : Machine (World T) (Action T) :=
  (machine T).withHistory fun s a _ h => h.add (s.event a)

namespace World

def init (T : LoggerTraits) (mem : Mem) (level : LogLevel) : World T :=
  ⟨.init T mem level, .init⟩

/-- Every run of the program can be recorded, so what holds of every recorded
run holds of every run. -/
theorem exists_run {mem : Mem} {level : LogLevel} {as : List (Action T)} {s : Sys T}
    (hrun : (machine T).run (.init T mem level) as = some s) :
    ∃ h, (recorded T).run (.init T mem level) as = some ⟨s, h⟩ :=
  Machine.exists_withHistory_run (machine T) _ Hist.init hrun

theorem step_eq_some_iff {w w' : World T} {a : Action T} :
    (recorded T).step w a = some w' ↔
      ∃ ev, Sys.Step w.now a ev w'.now ∧ w'.hist = w.hist.add ev := by
  rw [recorded, Machine.withHistory_step_eq_some]
  constructor
  · rintro ⟨hs, hh⟩
    exact ⟨_, Sys.step_eq_some_iff.mp ⟨hs, rfl⟩, hh⟩
  · rintro ⟨ev, hs, hh⟩
    obtain ⟨hstep, rfl⟩ := Sys.step_eq_some_iff.mpr hs
    exact ⟨hstep, hh⟩

/-- A run, by its first step. -/
theorem run_cons {w w' : World T} {a : Action T} {as : List (Action T)} {ev : Event} {s : Sys T}
    (hs : Sys.Step w.now a ev s) (hrun : (recorded T).run ⟨s, w.hist.add ev⟩ as = some w') :
    (recorded T).run w (a :: as) = some w' :=
  (Machine.run_cons_eq_some _).mpr ⟨⟨s, w.hist.add ev⟩, step_eq_some_iff.mpr ⟨ev, hs, rfl⟩, hrun⟩

/-- An invariant of states and records holds after every run that starts in it. -/
theorem run_invariant {I : Sys T → Hist T → Prop}
    (hstep : ∀ s a ev s' h, I s h → Sys.Step s a ev s' → I s' (h.add ev))
    {as : List (Action T)} {w w' : World T} (hI : I w.now w.hist)
    (hrun : (recorded T).run w as = some w') : I w'.now w'.hist := by
  refine Machine.run_invariant (I := fun w => I w.now w.hist) ?_ hI hrun
  intro w a w' hI hs
  obtain ⟨ev, hs, hh⟩ := step_eq_some_iff.mp hs
  rw [hh]
  exact hstep _ _ _ _ _ hI hs

/-- The same for runs whose steps all meet `P`, and invariants that need it. -/
theorem along_invariant {I : Sys T → Hist T → Prop} {P : World T → Action T → World T → Prop}
    (hstep : ∀ s a ev s' h, I s h → Sys.Step s a ev s' → P ⟨s, h⟩ a ⟨s', h.add ev⟩ →
      I s' (h.add ev))
    {as : List (Action T)} {w w' : World T} (hP : (recorded T).Along P w as)
    (hI : I w.now w.hist) (hrun : (recorded T).run w as = some w') : I w'.now w'.hist := by
  refine Machine.Along.invariant (I := fun w => I w.now w.hist) ?_ hP hI hrun
  intro w a w' hI hs hp
  obtain ⟨ev, hs, hh⟩ := step_eq_some_iff.mp hs
  obtain ⟨s', h'⟩ := w'
  cases hh
  exact hstep _ _ _ _ _ hI hs hp

end World

/-! ## The producers' side -/

/-- The queue and the record of it agree. -/
structure Ledger (s : Sys T) (h : Hist T) : Prop where
  /-- A thread at `try_enqueue` has the array of its last call. -/
  offered : ∀ t p, s.producers t = .offering p →
    ∃ c alloc, h.calls t = some c ∧ CLogger.prepare alloc c.threshold c.msg = .full p
  queue : s.logger.queue = Lanes.map Entry.array h.queued
  conserves : Lanes.Conserves Entry.producer h.accepted h.dequeued h.queued
  numbered : ∀ t, (h.accepted t).map Entry.seq = List.range (h.accepted t).length
  /-- What was enqueued had passed the level check, if its overload has one. -/
  passed : ∀ t, ∀ e ∈ h.accepted t,
    e.call.msg.time = none → e.call.threshold ≤ e.call.msg.level.underlying

namespace Ledger

theorem init (mem : Mem) (level : LogLevel) : Ledger (Sys.init T mem level) .init where
  offered _ _ h := by cases h
  queue := rfl
  conserves := .start
  numbered _ := rfl
  passed _ _ h := absurd h List.not_mem_nil

variable {s s' : Sys T} {h : Hist T}

/-- The record of the head of a lane. -/
theorem exists_head (hI : Ledger s h) {t : Tid} {array : ArgumentArray T}
    {rest : List (ArgumentArray T)} (hq : s.logger.queue t = array :: rest) :
    ∃ e es, h.queued t = e :: es ∧ array = e.array ∧ rest = es.map Entry.array := by
  rw [hI.queue] at hq
  obtain ⟨e, es, hes, he, hrest⟩ := List.map_eq_cons_iff.mp hq
  exact ⟨e, es, hes, he.symm, hrest.symm⟩

/-- What a producer has in hand when its offer is taken. -/
theorem exists_offered (hI : Ledger s h) {t : Tid} {p : ArgumentArray T}
    (ht : s.producers t = .offering p) :
    ∃ c, h.calls t = some c ∧ (c.msg.time = none → c.threshold ≤ c.msg.level.underlying) ∧
      ∃ fits : c.msg.elements.length ≤ T.paramSize, p = .ofValues c.msg.elements fits := by
  obtain ⟨c, alloc, hc, hp⟩ := hI.offered t p ht
  obtain ⟨hlevel, -, fits, rfl⟩ := CLogger.prepare_eq_full.mp hp
  exact ⟨c, hc, hlevel, fits, rfl⟩

/-- A thread whose producer state is replaced by one that offers nothing. -/
theorem offered_update (hI : Ledger s h) {t : Tid} (r : Option WriteResult) (u : Tid)
    (p : ArgumentArray T) (hu : Function.update s.producers t (.idle r) u = .offering p) :
    ∃ c alloc, h.calls u = some c ∧ CLogger.prepare alloc c.threshold c.msg = .full p := by
  rcases eq_or_ne u t with rfl | hne
  · rw [Function.update_self] at hu
    cases hu
  · rw [Function.update_of_ne hne] at hu
    exact hI.offered u p hu

theorem step {a : Action T} {ev : Event} (hI : Ledger s h) (hs : Sys.Step s a ev s') :
    Ledger s' (h.add ev) := by
  cases hs with
  | setLevel l _ => exact { hI with }
  | overwrite p str _ => exact { hI with }
  | call t c alloc _ ht =>
      refine { hI with offered := ?_ }
      intro u p hu
      show ∃ c' alloc, Function.update h.calls t _ u = some c' ∧ _
      rcases eq_or_ne u t with rfl | hne
      · simp only [Function.update_self] at hu ⊢
        exact ⟨_, alloc, rfl, Producer.ofPrepared_eq_offering.mp hu⟩
      · simp only [Function.update_of_ne hne] at hu ⊢
        exact hI.offered u p hu
  | refuse t _ ht => exact { hI with offered := hI.offered_update _ }
  | accept t _ ht =>
      obtain ⟨c, hc, hlevel, fits, rfl⟩ := hI.exists_offered ht
      rw [Hist.add_accepted hc fits]
      exact {
        offered := hI.offered_update _
        queue := by
          show s.logger.queue.push t _ = _
          rw [hI.queue, Lanes.map_push]
          rfl
        conserves := hI.conserves.push rfl
        numbered := by
          intro u
          show (h.accepted.push t _ u).map Entry.seq = List.range (h.accepted.push t _ u).length
          rcases eq_or_ne u t with rfl | hne
          · rw [Lanes.push_same, List.map_append, hI.numbered, List.length_append,
              List.length_singleton, List.range_succ]
            rfl
          · rw [Lanes.push_of_ne hne]
            exact hI.numbered u
        passed := by
          intro u e he
          rcases Lanes.mem_push.mp he with he | ⟨-, rfl⟩
          · exact hI.passed u e he
          · exact hlevel }
  | dequeue ch _ _ hq =>
      obtain ⟨e, es, hes, rfl, rfl⟩ := hI.exists_head hq
      rw [Hist.add_dequeued hes]
      exact {
        offered := hI.offered
        queue := by
          show Function.update s.logger.queue _ _ = _
          rw [hI.queue, ← Lanes.map_update]
        conserves := hI.conserves.pop hes
        numbered := hI.numbered
        passed := hI.passed }
  | testStop ch _ => exact { hI with }
  | dequeueNone ch _ _ => exact { hI with }
  | format ch _ _ | formatThrow ch _ _ =>
      obtain ⟨turns, hadd⟩ := h.exists_add_formatted s.mem
      rw [hadd]
      exact { hI with }
  | insert ch _ => exact { hI with }
  | flush ch _ => exact { hI with }
  | sleep ch _ => exact { hI with }
  | finalFlush ch _ => exact { hI with }
  | stopCall _ _ => exact { hI with }
  | stopStore _ _ => exact { hI with }
  | stopJoin _ _ => exact { hI with }
  | stopClose _ _ => exact { hI with }

theorem of_run {mem : Mem} {level : LogLevel} {as : List (Action T)} {w : World T}
    (hrun : (recorded T).run (.init T mem level) as = some w) : Ledger w.now w.hist :=
  World.run_invariant (fun _ _ _ _ _ hI hs => hI.step hs) (.init mem level) hrun

/-- The next entry of a producer is none of its entries so far. -/
theorem next_not_mem (hI : Ledger s h) {t : Tid} {e : Entry T}
    (he : e.seq = (h.accepted t).length) : e ∉ h.accepted t := by
  intro hmem
  have hseq : e.seq ∈ List.range (h.accepted t).length := by
    rw [← hI.numbered]
    exact List.mem_map_of_mem hmem
  rw [he] at hseq
  exact absurd (List.mem_range.mp hseq) (Nat.lt_irrefl _)

theorem accepted_nodup (hI : Ledger s h) (t : Tid) : (h.accepted t).Nodup := by
  refine List.Nodup.of_map Entry.seq ?_
  rw [hI.numbered]
  exact List.nodup_range

theorem dequeued_nodup (hI : Ledger s h) : h.dequeued.Nodup :=
  hI.conserves.removed_nodup hI.accepted_nodup

end Ledger

/-! ## The consumer's side -/

/-- What the consumer has done with what it dequeued, by where it is. -/
def DoneWith (h : Hist T) (array : ArgumentArray T) (stream : Stream) : ConsumerPc → Prop
  | .format => ∃ e, h.dequeued = h.turns.map Turn.entry ++ [e] ∧ array = e.array ∧
      stream.contents = h.text
  | .insert p => h.dequeued = h.turns.map Turn.entry ∧
      ∃ s, p = some (s ++ [NUL]) ∧ h.text = stream.contents ++ beforeNul s
  | .terminated _ => h.dequeued = h.turns.map Turn.entry
  | .testStop | .tryDequeue | .flush | .sleep | .finalFlush | .exited =>
      h.dequeued = h.turns.map Turn.entry ∧ stream.contents = h.text

/-- The record and the stream agree. -/
structure Written (s : Sys T) (h : Hist T) : Prop where
  doneWith : DoneWith h s.argumentArray s.stream s.pc
  /-- The program is alive as long as every message could be formatted. -/
  sound : s.alive = true ↔ ∀ x ∈ h.turns, x.Formats

namespace Written

theorem init (mem : Mem) (level : LogLevel) : Written (Sys.init T mem level) .init where
  doneWith := ⟨rfl, rfl⟩
  sound := ⟨fun _ _ hx => absurd hx List.not_mem_nil, fun _ => rfl⟩

variable {s s' : Sys T} {h : Hist T}

theorem doneWith_of_contents_eq {array : ArgumentArray T} {stream stream' : Stream}
    {pc : ConsumerPc} (hc : stream'.contents = stream.contents)
    (hd : DoneWith h array stream pc) : DoneWith h array stream' pc := by
  cases pc <;> simpa only [DoneWith, hc] using hd

/-- A move of the consumer that neither starts nor ends a turn. -/
theorem move (hI : Written s h) {pc pc' : ConsumerPc} {stream : Stream} (hpc : s.pc = pc)
    (hne : pc.alive = true) (hne' : pc'.alive = true)
    (hd : DoneWith h s.argumentArray stream pc') :
    Written { s with stream := stream, pc := pc' } h where
  doneWith := hd
  sound := by
    rw [← hI.sound, Sys.alive_of_pc hpc hne, Sys.alive_of_pc rfl hne']

/-- A call of `format`, for the message in hand. -/
theorem exists_format (hI : Written s h) (hpc : s.pc = .format) :
    ∃ e : Entry T, h.add (.formatted s.mem) = { h with turns := h.turns ++ [⟨e, s.mem⟩] } ∧
      h.dequeued = (h.turns ++ [Turn.mk e s.mem]).map Turn.entry ∧
      s.argumentArray = e.array ∧ s.stream.contents = h.text ∧ ∀ x ∈ h.turns, x.Formats := by
  have hd := hI.doneWith
  rw [hpc] at hd
  obtain ⟨e, hde, harray, hc⟩ := hd
  refine ⟨e, Hist.add_formatted s.mem hde, ?_, harray, hc, hI.sound.mp ?_⟩
  · rw [List.map_append, hde]
    rfl
  · exact Sys.alive_of_pc hpc rfl

theorem step {a : Action T} {ev : Event} (hL : Ledger s h) (hI : Written s h)
    (hs : Sys.Step s a ev s') : Written s' (h.add ev) := by
  have hd := hI.doneWith
  cases hs with
  | setLevel l _ => exact { hI with }
  | overwrite p str _ => exact { hI with }
  | call t c alloc _ _ => exact { hI with }
  | refuse t _ _ => exact { hI with }
  | accept t _ _ =>
      obtain ⟨accepted, queued, hadd⟩ := h.exists_add_accepted t
      rw [hadd]
      exact { hI with }
  | testStop ch hpc =>
      rw [hpc] at hd
      refine hI.move hpc rfl ?_ ?_
      · split <;> rfl
      · split <;> exact hd
  | dequeueNone ch hpc _ =>
      rw [hpc] at hd
      exact hI.move hpc rfl rfl hd
  | dequeue ch hpc _ hq =>
      rw [hpc] at hd
      obtain ⟨e, es, hes, rfl, -⟩ := hL.exists_head hq
      rw [Hist.add_dequeued hes]
      exact {
        doneWith := ⟨e, by rw [hd.1], rfl, hd.2⟩
        sound := by
          show _ ↔ ∀ x ∈ h.turns, x.Formats
          rw [← hI.sound, Sys.alive_of_pc hpc rfl, Sys.alive_of_pc (c := .format) rfl rfl] }
  | format ch hpc hf =>
      obtain ⟨e, hadd, hde, harray, hc, hall⟩ := hI.exists_format hpc
      rw [harray] at hf
      rw [hadd]
      rcases format_ofValues e.fits s.mem s.formatter with ⟨hF, f', hf'⟩ | ⟨-, e', f', hf'⟩
      · obtain ⟨rfl, -⟩ := EStateM.Result.ok.inj (hf.symm.trans hf')
        exact {
          doneWith := ⟨hde, _, rfl, by rw [Hist.text_append, hc]; rfl⟩
          sound := iff_of_true (Sys.alive_of_pc (c := .insert _) rfl rfl) <| by
            intro x hx
            rcases List.mem_append.mp hx with hx | hx
            · exact hall x hx
            · rw [List.mem_singleton.mp hx]
              exact hF }
      · rw [Entry.array, hf'] at hf
        cases hf
  | formatThrow ch hpc hf =>
      obtain ⟨e, hadd, hde, harray, hc, hall⟩ := hI.exists_format hpc
      rw [harray] at hf
      rw [hadd]
      rcases format_ofValues e.fits s.mem s.formatter with ⟨-, f', hf'⟩ | ⟨hF, -⟩
      · rw [Entry.array, hf'] at hf
        cases hf
      · exact {
          doneWith := hde
          sound := iff_of_false Bool.false_ne_true fun hx => hF (hx ⟨e, s.mem⟩ (by simp)) }
  | insert ch hpc =>
      rw [hpc] at hd
      obtain ⟨hde, text, rfl, htext⟩ := hd
      refine hI.move hpc rfl rfl ⟨hde, ?_⟩
      rw [htext, Sys.insertText, Stream.contents_insert, beforeNul_terminated]
  | flush ch hpc =>
      rw [hpc] at hd
      exact hI.move hpc rfl rfl
        ⟨hd.1, by rw [Stream.contents_flush, hd.2]⟩
  | sleep ch hpc =>
      rw [hpc] at hd
      exact hI.move hpc rfl rfl hd
  | finalFlush ch hpc =>
      rw [hpc] at hd
      exact hI.move hpc rfl rfl
        ⟨hd.1, by rw [Stream.contents_flush, hd.2]⟩
  | stopCall _ _ => exact { hI with }
  | stopStore _ _ => exact { hI with }
  | stopJoin _ _ => exact { hI with }
  | stopClose _ _ =>
      exact { hI with doneWith := doneWith_of_contents_eq (Stream.contents_flush _) hd }

/-- What is formatted was dequeued. -/
theorem entry_mem_dequeued (hI : Written s h) {x : Turn T} (hx : x ∈ h.turns) :
    x.entry ∈ h.dequeued := by
  have hmem : x.entry ∈ h.turns.map Turn.entry := List.mem_map_of_mem hx
  have hd := hI.doneWith
  cases hpc : s.pc with
  | format =>
      rw [hpc] at hd
      obtain ⟨e, hde, -⟩ := hd
      rw [hde]
      exact List.mem_append_left _ hmem
  | terminated e =>
      rw [hpc] at hd
      rwa [show h.dequeued = _ from hd]
  | _ =>
      rw [hpc] at hd
      rwa [hd.1]

/-- With nothing in hand, the stream is what the turns have written. -/
theorem contents_of_not_inHand (hI : Written s h) (halive : s.alive = true)
    (hpc : s.pc.inHand = false) :
    h.dequeued = h.turns.map Turn.entry ∧ s.stream.contents = h.text := by
  have hd := hI.doneWith
  cases hc : s.pc with
  | format | insert p =>
      rw [hc] at hpc
      cases hpc
  | terminated e =>
      rw [Sys.alive, hc] at halive
      cases halive
  | _ =>
      rw [hc] at hd
      exact hd

theorem of_run {mem : Mem} {level : LogLevel} {as : List (Action T)} {w : World T}
    (hrun : (recorded T).run (.init T mem level) as = some w) : Written w.now w.hist :=
  (World.run_invariant (I := fun s h => Ledger s h ∧ Written s h)
    (fun _ _ _ _ _ hI hs => ⟨hI.1.step hs, hI.2.step hI.1 hs⟩)
    ⟨.init mem level, .init mem level⟩ hrun).2

end Written

/-! ## One turn -/

/-- From `format`, with a message that formats: its text is inserted next, and
the consumer is back at `try_dequeue`. -/
theorem World.exists_turn {w : World T} (hpc : w.now.pc = .format) {e : Entry T}
    (harray : w.now.argumentArray = e.array) (hF : e.call.msg.Formats T w.now.mem)
    (ch ch' : Choice) :
    ∃ w' w'', (recorded T).step w (.consume ch) = some w' ∧
      w'.now.pc = .insert (some (e.call.msg.rendered w.now.mem ++ [NUL])) ∧
      (recorded T).step w' (.consume ch') = some w'' ∧ w''.now.pc = .tryDequeue ∧
      w''.now.stream.contents =
        w.now.stream.contents ++ beforeNul (e.call.msg.rendered w.now.mem) ∧
      w''.hist = w.hist.add (.formatted w.now.mem) := by
  obtain ⟨f', hf, -⟩ := format_message e.fits hF.1 w.now.mem hF.2 w.now.formatter
  have hformat : CFormatter.format w.now.mem w.now.argumentArray w.now.formatter =
      .ok (some (e.call.msg.rendered w.now.mem ++ [NUL])) f' := by
    rw [harray]
    exact hf
  refine ⟨⟨_, _⟩, ⟨_, _⟩, World.step_eq_some_iff.mpr ⟨_, .format ch hpc hformat, rfl⟩, rfl,
    World.step_eq_some_iff.mpr ⟨_, .insert ch' rfl, rfl⟩, rfl, ?_, rfl⟩
  show (Sys.insertText _ _ _).contents = _
  rw [Sys.insertText, Stream.contents_insert, beforeNul_terminated]

end Rtlog
