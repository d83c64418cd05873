/-
# `Rtlog.FileContent` — the file, message by message

What the stream holds, in the file and in its buffer together, whenever the
consumer has nothing in hand:

    `contents_eq_lines`    the lines of the dequeued messages, if no message
                           has a NUL and no string changes before it is read
    `isLine_iff`           one line for each message that was formatted, exactly
                           if no argument is the NUL character

The NUL is what separates the two representations of a text.  The writer keeps a
length, and the newline of the end marker is inside it; the stream is handed a
pointer and stops at the first NUL.  Strings cannot contain one, numerals do not,
so the only argument that can is a `char` (`nul_mem_rendered_iff`).
-/
import Rtlog.Shutdown

namespace Rtlog

variable {T : LoggerTraits}

/-! ## Lines -/

/-- The text of the message as its strings were when `write` was called. -/
def Entry.line (e : Entry T) : List Char := e.call.msg.text e.call.mem

/-- The message has no element that cannot be cast and no end marker of the
caller's, and its text is shorter than the buffer and has no NUL. -/
structure Entry.Good (e : Entry T) : Prop where
  castable : e.call.msg.Castable
  noMarker : ∀ v ∈ e.call.msg.contents, v.ty ≠ .arrayEndMarker
  short : e.line.length < T.bufferSize
  noNul : NUL ∉ e.line

namespace Turn

/-- The strings of the message are when it is formatted what they were when
`write` was called. -/
def Kept (x : Turn T) : Prop := ∀ p ∈ x.entry.call.msg.pointers, x.mem p = x.entry.call.mem p

theorem rendered_of_kept {x : Turn T} (h : x.Kept) (hg : x.entry.Good) :
    x.rendered = x.entry.line :=
  (Message.rendered_congr h).trans (Message.rendered_eq_text _ hg.noMarker)

theorem written_of_kept {x : Turn T} (h : x.Kept) (hg : x.entry.Good) :
    x.written = x.entry.line := by
  rw [written, rendered_of_kept h hg]
  exact beforeNul_of_noNul hg.noNul

theorem formats_of_kept {x : Turn T} (h : x.Kept) (hg : x.entry.Good) : x.Formats := by
  refine ⟨hg.castable, ?_⟩
  show x.rendered.length < T.bufferSize
  rw [rendered_of_kept h hg]
  exact hg.short

end Turn

section Run

variable {mem : Mem} {level : LogLevel} {as : List (Action T)} {w : World T}

/-- What is formatted was accepted. -/
theorem entry_mem_accepted (hrun : (recorded T).run (.init T mem level) as = some w)
    {x : Turn T} (hx : x ∈ w.hist.turns) : x.entry ∈ w.hist.accepted x.entry.producer :=
  (Ledger.of_run hrun).conserves.removed_subset ((Written.of_run hrun).entry_mem_dequeued hx)

/-- In every reachable state in which the consumer has nothing in hand: it has
not thrown, the file and the buffer are the lines of the dequeued messages in
the order of the dequeues, no message was accepted or dequeued twice, and what a
producer has enqueued is, in order, what was dequeued of it and what the queue
still holds of it. -/
theorem contents_eq_lines (hrun : (recorded T).run (.init T mem level) as = some w)
    (hgood : ∀ t, ∀ e ∈ w.hist.accepted t, e.Good) (hkept : ∀ x ∈ w.hist.turns, x.Kept)
    (hpc : w.now.pc.inHand = false) :
    w.now.alive = true ∧
    w.now.stream.file ++ w.now.stream.buffer = (w.hist.dequeued.map Entry.line).flatten ∧
    (∀ t, (w.hist.accepted t).Nodup) ∧ w.hist.dequeued.Nodup ∧
    (∀ t, w.hist.accepted t =
      w.hist.dequeued.filter (fun e => e.producer = t) ++ w.hist.queued t) ∧
    ∀ t, w.now.logger.queue t = (w.hist.queued t).map Entry.array := by
  have hL := Ledger.of_run hrun
  have hW := Written.of_run hrun
  have hgood' : ∀ x ∈ w.hist.turns, x.entry.Good := fun x hx =>
    hgood _ _ (entry_mem_accepted hrun hx)
  have halive : w.now.alive = true :=
    hW.sound.mpr fun x hx => Turn.formats_of_kept (hkept x hx) (hgood' x hx)
  obtain ⟨hde, hcontents⟩ := hW.contents_of_not_inHand halive hpc
  refine ⟨halive, ?_, hL.accepted_nodup, hL.dequeued_nodup, hL.conserves.split,
    fun t => congrFun hL.queue t⟩
  have hlines : w.hist.turns.map Turn.written = w.hist.turns.map (Entry.line ∘ Turn.entry) :=
    List.map_congr_left fun x hx => Turn.written_of_kept (hkept x hx) (hgood' x hx)
  calc w.now.stream.file ++ w.now.stream.buffer
      = (w.hist.turns.map Turn.written).flatten := hcontents
    _ = (w.hist.dequeued.map Entry.line).flatten := by rw [hlines, hde, List.map_map]

end Run

/-! ## What can be in a text -/

/-- The value is the character `c`. -/
def Value.isChar (c : Char) (v : Value) : Bool :=
  match v.ty, v.val with
  | .char, d => d = c
  | _, _ => false

/-- Nothing but an argument brings `c` into a text. -/
structure Foreign (c : Char) : Prop where
  ne_space : c ≠ ' '
  ne_minus : c ≠ '-'
  not_digit : c.isDigit = false
  not_upper : c.isUpper = false

theorem foreign_nul : Foreign NUL := ⟨by decide, by decide, by decide, by decide⟩

theorem foreign_newline : Foreign '\n' := ⟨by decide, by decide, by decide, by decide⟩

theorem mem_heldText_iff (mem : Mem) {c : Char} (hc : Foreign c) (v : Value) :
    c ∈ heldText mem v.ty v.val ↔
      v.isChar c = true ∨ (∃ p, v.pointer? = some p ∧ c ∈ (mem p).chars) ∨
        v.ty = .arrayEndMarker ∧ c = '\n' := by
  have hint : ∀ t v, c ∉ intText t v := not_mem_intText hc.ne_minus hc.not_digit
  have htime : ∀ v, c ∉ timeText v := fun v => not_mem_decimal hc.ne_minus hc.not_digit _
  obtain ⟨t, v, hs⟩ := v
  cases t with
  | char => simp [heldText, Value.isChar, Value.pointer?, hc.ne_space, eq_comm]
  | int t => simp [heldText, Value.isChar, Value.pointer?, hc.ne_space, hint]
  | timePoint => simp [heldText, Value.isChar, Value.pointer?, hc.ne_space, htime]
  | constCharPtr | charPtr | constCharArray n | charArray n =>
      simp [heldText, Value.isChar, Value.pointer?, hc.ne_space]
  | logLevel =>
      simp only [heldText, Value.isChar, Value.pointer?, List.mem_append, List.mem_singleton,
        hc.ne_space]
      cases hsig : levelText v with
      | none => simp
      | some sig =>
          have hsig' : c ∉ sig := by
            intro h
            have := isUpper_of_mem_logLevelSignature hsig h
            rw [hc.not_upper] at this
            cases this
          simp [hsig']
  | nullptrT | logLevelType l => simp [heldText, Value.isChar, Value.pointer?]
  | arrayEndMarker => simp [heldText, Value.isChar, Value.pointer?]

/-- Only a `char` brings NUL into a text. -/
theorem nul_mem_rendered_iff (mem : Mem) (m : Message) :
    NUL ∈ m.rendered mem ↔ ∃ v ∈ m.shown, v.isChar NUL = true := by
  have hv : ∀ v : Value, NUL ∈ heldText mem v.ty v.val ↔ v.isChar NUL = true := by
    intro v
    rw [mem_heldText_iff mem foreign_nul]
    refine or_iff_left ?_
    rintro (⟨p, -, hp⟩ | ⟨-, h⟩)
    · exact (mem p).noNul hp
    · cases h
  rw [Message.rendered, List.mem_append, List.mem_flatten]
  simp only [List.mem_map, List.mem_singleton]
  constructor
  · rintro (⟨_, ⟨v, hmem, rfl⟩, h⟩ | h)
    · exact ⟨v, hmem, (hv v).mp h⟩
    · cases h
  · rintro ⟨v, hmem, h⟩
    exact .inl ⟨_, ⟨v, hmem, rfl⟩, (hv v).mpr h⟩

/-- The value brings no newline into a text. -/
def Value.NoNewline (mem : Mem) (v : Value) : Prop :=
  v.isChar '\n' = false ∧ ∀ p, v.pointer? = some p → '\n' ∉ (mem p).chars

theorem isLine_rendered {mem : Mem} {m : Message} (h : ∀ v ∈ m.contents, v.NoNewline mem) :
    IsLine (m.rendered mem) := by
  refine ⟨_, rfl, ?_⟩
  intro hmem
  obtain ⟨_, htext, hnl⟩ := List.mem_flatten.mp hmem
  obtain ⟨v, hv, rfl⟩ := List.mem_map.mp htext
  obtain ⟨hchar, hstr⟩ := h v (List.takeWhile_subset _ hv)
  rcases (mem_heldText_iff mem foreign_newline v).mp hnl with h | ⟨p, hp, h⟩ | ⟨h, -⟩
  · rw [hchar] at h
    cases h
  · exact hstr p hp h
  · simpa [h] using List.mem_takeWhile_imp hv

section Run

variable {mem : Mem} {level : LogLevel} {as : List (Action T)} {w : World T}

/-- The consumer has written for each message what the formatter rendered, and
that is one line for each, exactly if none of them shows the NUL character. -/
theorem isLine_iff (hrun : (recorded T).run (.init T mem level) as = some w)
    (hfit : ∀ x ∈ w.hist.turns, x.Formats)
    (hnl : ∀ x ∈ w.hist.turns, ∀ v ∈ x.entry.call.msg.contents, v.NoNewline x.mem)
    (hpc : w.now.pc.inHand = false) :
    (w.hist.turns.map Turn.entry = w.hist.dequeued ∧
      w.now.stream.contents = (w.hist.turns.map Turn.rendered).flatten ∧
      ∀ x ∈ w.hist.turns, IsLine x.rendered) ↔
    ∀ x ∈ w.hist.turns, ∀ v ∈ x.entry.call.msg.shown, v.isChar NUL = false := by
  have hW := Written.of_run hrun
  obtain ⟨hde, hcontents⟩ := hW.contents_of_not_inHand (hW.sound.mpr hfit) hpc
  have htext : w.hist.text = ((w.hist.turns.map Turn.rendered).map beforeNul).flatten := by
    rw [List.map_map]
    rfl
  have hlines : ∀ x ∈ w.hist.turns, IsLine x.rendered := fun x hx => isLine_rendered (hnl x hx)
  rw [hcontents, htext, flatten_map_beforeNul_eq_iff, List.forall_mem_map]
  simp only [hde, true_and, and_iff_left hlines]
  refine forall_congr' fun x => imp_congr_right fun _ => ?_
  rw [show NUL ∉ x.rendered ↔ _ from not_congr (nul_mem_rendered_iff x.mem x.entry.call.msg)]
  simp

end Run

/-! ## A run of one message -/

/-- Thread 0 makes a call, and the consumer dequeues its message. -/
def fetched (c : Call T) : List (Action T) :=
  [.consume ⟨none, 0⟩, .call 0 c fun _ => true, .enqueue 0 true, .consume ⟨some 0, 0⟩]

/-- Then it formats and inserts it. -/
def served (c : Call T) : List (Action T) :=
  fetched c ++ [.consume ⟨none, 0⟩, .consume ⟨none, 0⟩]

/-- The entry of the call. -/
def firstEntry (mem : Mem) (c : Call T) (fits : c.msg.elements.length ≤ T.paramSize) : Entry T :=
  ⟨0, 0, ⟨c.msg, mem, 0⟩, fits⟩

/-- What is written down of it. -/
theorem hist_fetched (mem : Mem) (c : Call T) (fits : c.msg.elements.length ≤ T.paramSize) :
    ∃ calls queued, (((Hist.init (T := T)).add (.called 0 ⟨c.msg, mem, 0⟩)).add
        (.accepted 0)).add (.dequeued 0) =
      { calls := calls
        accepted := Lanes.empty.push 0 (firstEntry mem c fits)
        queued := queued
        dequeued := [firstEntry mem c fits]
        turns := []
        beforeStop := .empty } := by
  have hcall : (Hist.init.add (.called 0 ⟨c.msg, mem, 0⟩) : Hist T).calls 0 =
      some ⟨c.msg, mem, 0⟩ := by simp only [Hist.add, Function.update_self]
  rw [Hist.add_accepted hcall fits,
    Hist.add_dequeued (show _ = [firstEntry mem c fits] from rfl)]
  exact ⟨_, _, rfl⟩

/-- Any message that fits can be dequeued. -/
theorem exists_run_fetched (mem : Mem) (c : Call T)
    (fits : c.msg.elements.length ≤ T.paramSize) :
    ∃ w, (recorded T).run (.init T mem .info) (fetched c) = some w ∧
      w.now.pc = .format ∧ w.now.mem = mem ∧
      w.now.argumentArray = (firstEntry mem c fits).array ∧
      (∀ t, ∃ r, w.now.producers t = .idle r) ∧
      w.hist.accepted = Lanes.empty.push 0 (firstEntry mem c fits) ∧
      w.hist.dequeued = [firstEntry mem c fits] ∧ w.hist.turns = [] := by
  let p : ArgumentArray T := .ofValues c.msg.elements fits
  have hp : CLogger.prepare (fun _ => true) LogLevel.info.underlying c.msg = .full p :=
    CLogger.prepare_of_fits c.msg UInt32.zero_le fits
  have ht : Function.update (fun _ : Tid => (.idle none : Producer T)) 0
      (.ofPrepared (CLogger.prepare (fun _ => true) LogLevel.info.underlying c.msg)) 0 =
        .offering p := by
    rw [Function.update_self, hp]
    rfl
  have hq : (Lanes.empty : Lanes Tid (ArgumentArray T)).push 0 p 0 = [p] := Lanes.push_same _ _ _
  have hidle : ∀ (q : Producer T) (t : Tid), ∃ r, Function.update
      (Function.update (fun _ : Tid => (.idle none : Producer T)) 0 q) 0
        (.idle (some (.returned true))) t = .idle r := by
    intro q t
    rcases eq_or_ne t 0 with rfl | hne
    · exact ⟨_, Function.update_self _ _ _⟩
    · exact ⟨_, (Function.update_of_ne hne _ _).trans (Function.update_of_ne hne _ _)⟩
  obtain ⟨calls, queued, hh⟩ := hist_fetched mem c fits
  refine ⟨_, World.run_cons (.testStop _ rfl) <| World.run_cons (.call 0 c _ rfl rfl) <|
    World.run_cons (.accept 0 rfl ht) <| World.run_cons (.dequeue _ rfl rfl hq) rfl,
    rfl, rfl, rfl, ?_, ?_, ?_, ?_⟩
  · exact hidle _
  · exact congrArg Hist.accepted hh
  · exact congrArg Hist.dequeued hh
  · exact congrArg Hist.turns hh

/-- Any message that fits and formats can be served. -/
theorem exists_run_served (mem : Mem) (c : Call T) (fits : c.msg.elements.length ≤ T.paramSize)
    (hF : c.msg.Formats T mem) :
    ∃ w, (recorded T).run (.init T mem .info) (served c) = some w ∧
      w.now.pc.inHand = false ∧
      w.hist.accepted = Lanes.empty.push 0 (firstEntry mem c fits) ∧
      w.hist.turns = [⟨firstEntry mem c fits, mem⟩] := by
  obtain ⟨w, hrun, hpc, hmem, harray, -, hacc, hde, hturns⟩ := exists_run_fetched mem c fits
  obtain ⟨w', w'', hs, -, hs', hend, -, hh⟩ :=
    World.exists_turn hpc harray (by rw [hmem]; exact hF) ⟨none, 0⟩ ⟨none, 0⟩
  have hadd := Hist.add_formatted w.now.mem (show w.hist.dequeued = [] ++ [_] from hde)
  refine ⟨w'', ?_, by rw [hend]; rfl, ?_, ?_⟩
  · rw [served, Machine.run_append, hrun]
    exact (Machine.run_cons_eq_some _).mpr
      ⟨w', hs, (Machine.run_cons_eq_some _).mpr ⟨w'', hs', rfl⟩⟩
  · rw [hh, hadd]
    exact hacc
  · rw [hh, hadd, hturns, hmem]
    rfl

/-- `LOG_INFO(c)` of a character, without a time point. -/
def charCall (c : Char) : Call loggerTraits :=
  .bare ⟨none, .ofInt .int32 1, .info, 0, .ofChar c, []⟩ rfl

theorem ordinary_charCall (c : Char) : ∀ v ∈ (charCall c).msg.contents, Ordinary v :=
  ordinary_contents ⟨.int32, rfl⟩ (.inl rfl) fun v hv => by
    rw [List.mem_singleton.mp hv]
    exact ⟨(by intro h; cases h), trivial⟩

theorem noNewline_charCall {c : Char} (hc : c ≠ '\n') :
    ∀ v ∈ (charCall c).msg.contents, v.NoNewline .blank := by
  refine Message.forall_mem_contents.mpr ⟨?_, ⟨rfl, ?_⟩, ⟨rfl, ?_⟩, ⟨rfl, ?_⟩, ⟨?_, ?_⟩, ?_⟩
  · intro t ht
    cases ht
  · intro p hp
    cases hp
  · intro p hp
    cases hp
  · intro p _
    exact List.not_mem_nil
  · show decide (c = '\n') = false
    exact decide_eq_false hc
  · intro p hp
    cases hp
  · intro v hv
    cases hv

theorem fits_charCall (c : Char) :
    (charCall c).msg.elements.length ≤ loggerTraits.paramSize := Call.fits_bare _ rfl

theorem length_line_charCall (c : Char) : ((charCall c).msg.line .blank).length = 11 := by
  have hid : field .blank (.ofInt .int32 1) = ['1', ' '] := by decide
  show ((field .blank (.ofInt .int32 1) :: _).flatten ++ ['\n']).length = 11
  rw [hid]
  rfl

theorem formats_charCall (c : Char) : (charCall c).msg.Formats loggerTraits .blank := by
  refine ⟨castable_of_ordinary (ordinary_charCall c), ?_⟩
  rw [rendered_eq_line .blank (ordinary_charCall c), length_line_charCall]
  exact Nat.le_of_ble_eq_true rfl

theorem contents_eq_lines_served : ∃ w,
    (recorded loggerTraits).run (.init _ .blank .info) (served (charCall 'x')) = some w ∧
    w.now.stream.file ++ w.now.stream.buffer = (w.hist.dequeued.map Entry.line).flatten := by
  have hord := ordinary_charCall 'x'
  obtain ⟨w, hrun, hpc, hacc, hturns⟩ := exists_run_served .blank (charCall 'x') (fits_charCall 'x')
    (formats_charCall 'x')
  refine ⟨w, hrun, (contents_eq_lines hrun ?_ ?_ hpc).2.1⟩
  · intro t e he
    rw [hacc] at he
    rcases Lanes.mem_push.mp he with he | ⟨-, rfl⟩
    · cases he
    · exact {
        castable := castable_of_ordinary hord
        noMarker := fun v hv => (hord v hv).1
        short := show ((charCall 'x').msg.text .blank).length < 1024 by decide
        noNul := show NUL ∉ (charCall 'x').msg.text .blank by decide }
  · intro x hx
    rw [hturns] at hx
    rw [List.mem_singleton.mp hx]
    exact fun _ _ => rfl

theorem isLine_iff_served : ∃ w,
    (recorded loggerTraits).run (.init _ .blank .info) (served (charCall 'x')) = some w ∧
    w.now.stream.contents = (w.hist.turns.map Turn.rendered).flatten := by
  obtain ⟨w, hrun, hpc, -, hturns⟩ := exists_run_served .blank (charCall 'x') (fits_charCall 'x')
    (formats_charCall 'x')
  refine ⟨w, hrun, ((isLine_iff hrun ?_ ?_ hpc).mpr ?_).2.1⟩ <;> rw [hturns] <;>
    refine List.forall_mem_singleton.mpr ?_
  · exact formats_charCall 'x'
  · exact noNewline_charCall (by decide)
  · show ∀ v ∈ (charCall 'x').msg.shown, v.isChar NUL = false
    decide

theorem not_isLine :
    ¬ ∀ (T : LoggerTraits) (mem : Mem) (level : LogLevel) (as : List (Action T)) (w : World T),
      (recorded T).run (.init T mem level) as = some w → (∀ x ∈ w.hist.turns, x.Formats) →
        (∀ x ∈ w.hist.turns, ∀ v ∈ x.entry.call.msg.contents, v.NoNewline x.mem) →
          w.now.pc.inHand = false →
            w.now.stream.contents = (w.hist.turns.map Turn.rendered).flatten ∧
              ∀ x ∈ w.hist.turns, IsLine x.rendered := by
  intro h
  obtain ⟨w, hrun, hpc, -, hturns⟩ := exists_run_served .blank (charCall NUL) (fits_charCall NUL)
    (formats_charCall NUL)
  have hfit : ∀ x ∈ w.hist.turns, x.Formats := by
    rw [hturns]
    exact List.forall_mem_singleton.mpr (formats_charCall NUL)
  have hW := Written.of_run hrun
  obtain ⟨-, hcontents⟩ := hW.contents_of_not_inHand (hW.sound.mpr hfit) hpc
  obtain ⟨hall, -⟩ := h _ _ _ _ w hrun hfit
    (by rw [hturns]; exact List.forall_mem_singleton.mpr (noNewline_charCall (by decide))) hpc
  rw [hcontents, Hist.text, hturns] at hall
  -- the cut text has no newline
  revert hall
  decide

end Rtlog
