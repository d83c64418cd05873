/-
# `Rtlog.EndToEnd` — from a call of `write` to the characters of its line

The array of a message is a run of stored values, an end marker, and empty
slots, so the formatter stops at a marker whatever the message is: at its own,
or at one the caller passed (`upToStop_ofValues`).  What it renders up to there
is `Message.rendered`, and by the exact description of `format` a call returns
it if it is shorter than the buffer and throws if not (`format_message`,
`format_message_too_long`).  The array may be full to the last slot: the loop
looks at no slot behind the marker.

`Message.line` is what a reader of the log expects, said without the tables:
the text of each element followed by a space, then a newline.  For the values a
message is normally made of, the two are the same (`rendered_eq_line`), and
`write_format` is the composition.
-/
import Rtlog.Agreement

namespace Rtlog

open CFormatter

variable {T : LoggerTraits}

/-! ## What a message renders to -/

namespace Message

/-- The elements before the first end marker. -/
def shown (m : Message) : List Value := m.contents.takeWhile fun v => v.ty ≠ .arrayEndMarker

/-- The text of the message as the tables have it. -/
def rendered (mem : Mem) (m : Message) : List Char :=
  (m.shown.map fun v => heldText mem v.ty v.val).flatten ++ ['\n']

/-- The text of every element, and a newline. -/
def text (mem : Mem) (m : Message) : List Char :=
  (m.contents.map fun v => heldText mem v.ty v.val).flatten ++ ['\n']

/-- No element that is shown is an array of non-`const` characters. -/
def Castable (m : Message) : Prop := ∀ v ∈ m.shown, ∀ n, v.ty ≠ .charArray n

/-- The message can be formatted: every cast is good, and its text is shorter
than the buffer. -/
def Formats (T : LoggerTraits) (mem : Mem) (m : Message) : Prop :=
  m.Castable ∧ (m.rendered mem).length < T.bufferSize

end Message

/-- Where a value points, if it is a C string. -/
def Value.pointer? (v : Value) : Option Ptr :=
  match v.ty, v.val with
  | .constCharPtr, p | .charPtr, p | .constCharArray _, p | .charArray _, p => some p
  | _, _ => none

/-- A value renders the same in two memories that agree where it points. -/
theorem heldText_congr {mem mem' : Mem} {v : Value}
    (h : ∀ p, v.pointer? = some p → mem p = mem' p) :
    heldText mem v.ty v.val = heldText mem' v.ty v.val := by
  obtain ⟨t, v, hs⟩ := v
  cases t with
  | constCharPtr | charPtr | constCharArray n | charArray n =>
      show (mem v).chars ++ _ = (mem' v).chars ++ _
      rw [h v rfl]
  | _ => rfl

namespace Message

/-- Without an end marker among the arguments every element is shown. -/
theorem shown_of_noMarker {m : Message} (h : ∀ v ∈ m.contents, v.ty ≠ .arrayEndMarker) :
    m.shown = m.contents :=
  List.takeWhile_eq_self_iff.mpr fun v hv => by simpa using h v hv

theorem rendered_eq_text (mem : Mem) {m : Message}
    (h : ∀ v ∈ m.contents, v.ty ≠ .arrayEndMarker) : m.rendered mem = m.text mem := by
  rw [rendered, shown_of_noMarker h]
  rfl

/-- The C strings a message holds. -/
def pointers (m : Message) : List Ptr := m.contents.filterMap Value.pointer?

theorem rendered_congr {mem mem' : Mem} {m : Message} (h : ∀ p ∈ m.pointers, mem p = mem' p) :
    m.rendered mem = m.rendered mem' := by
  unfold rendered
  congr 2
  refine List.map_congr_left fun v hv => heldText_congr fun p hp => h p ?_
  exact List.mem_filterMap.mpr ⟨v, List.takeWhile_subset _ hv, hp⟩

end Message

/-- A stored value stops the loop exactly if it is an end marker. -/
theorem stops_store (v : Value) : stops (.store v) = decide (v.ty = .arrayEndMarker) := by
  obtain ⟨t, v, hs⟩ := v
  cases t with
  | int t => cases t <;> rfl
  | charPtr => cases hs
  | logLevelType l =>
      have htag := Value.argType_eq_some ⟨.logLevelType l, v, hs⟩
      rcases argType_logLevelType htag with h | h | h <;>
        simp [stops, Argument.isType, Argument.store, Argument.empty, argType, h]
  | _ => rfl

/-- An end marker is the same argument whoever stored it. -/
theorem store_of_marker {v : Value} (h : v.ty = .arrayEndMarker) :
    Argument.store v = .store Message.endMarker := by
  obtain ⟨t, v, hs⟩ := v
  cases h
  rfl

/-- The loop sees the shown elements and one end marker. -/
theorem body_stop_of_elements (m : Message) (rest : List Argument) :
    body (m.elements.map .store ++ rest) = m.shown.map .store ∧
      stop? (m.elements.map .store ++ rest) = some (.store Message.endMarker) := by
  have hsplit : m.elements.map Argument.store ++ rest =
      m.contents.map .store ++ (.store Message.endMarker :: rest) := by
    simp [Message.elements]
  have hend : stops (.store Message.endMarker) = true := by rw [stops_store]; rfl
  rw [hsplit]
  unfold body stop? Message.shown
  generalize m.contents = vs
  induction vs with
  | nil => simp [hend]
  | cons v vs ih =>
      by_cases hv : v.ty = .arrayEndMarker
      · rw [List.map_cons, store_of_marker hv]
        simp [hend, hv]
      · have hs : stops (.store v) = false := by rw [stops_store]; simpa using hv
        simp only [List.map_cons, List.cons_append]
        rw [List.takeWhile_cons_of_pos (by simp [hs]), List.dropWhile_cons_of_pos (by simp [hs]),
          ih.1, ih.2]
        simp [hv]

section OfValues

variable {m : Message} (h : m.elements.length ≤ T.paramSize)

theorem upToStop_ofValues :
    upToStop (ArgumentArray.ofValues (T := T) m.elements h).slots =
      (m.shown ++ [Message.endMarker]).map .store := by
  obtain ⟨hbody, hstop⟩ := body_stop_of_elements m
    (List.replicate (T.paramSize - m.elements.length) .default)
  show body (m.elements.map .store ++ _) ++ (stop? (m.elements.map .store ++ _)).toList = _
  rw [hbody, hstop]
  simp

theorem complete_ofValues : Complete (ArgumentArray.ofValues (T := T) m.elements h).slots :=
  ⟨_, (body_stop_of_elements m _).2, rfl⟩

theorem textOfSlots_ofValues (mem : Mem) :
    textOfSlots mem (upToStop (ArgumentArray.ofValues (T := T) m.elements h).slots) =
      m.rendered mem := by
  rw [upToStop_ofValues h]
  simp only [textOfSlots, Message.rendered, List.map_map, List.map_append, List.flatten_append]
  congr 1
  exact congrArg List.flatten (List.map_congr_left fun v _ => Argument.rendered_store mem v)

theorem matches_ofValues (hc : m.Castable) :
    ∀ a ∈ upToStop (ArgumentArray.ofValues (T := T) m.elements h).slots, a.Matches := by
  rw [upToStop_ofValues h]
  intro a ha
  obtain ⟨v, hv, rfl⟩ := List.mem_map.mp ha
  refine Argument.store_matches ?_
  intro n hn
  rcases List.mem_append.mp hv with hv | hv
  · exact hc v hv n hn
  · rw [List.mem_singleton.mp hv] at hn
    cases hn

/-- A message shorter than the buffer is returned. -/
theorem format_message (hc : m.Castable) (mem : Mem)
    (hlen : (m.rendered mem).length < T.bufferSize) (f : CFormatter T) :
    ∃ f', format mem (.ofValues m.elements h) f = .ok (some (m.rendered mem ++ [NUL])) f' ∧
      f'.data = m.rendered mem := by
  have := format_text mem (matches_ofValues h hc) (complete_ofValues h)
    (by rwa [textOfSlots_ofValues h mem]) f
  rwa [textOfSlots_ofValues h mem] at this

/-- Any other message makes `format` throw. -/
theorem format_message_too_long (hc : m.Castable) (mem : Mem)
    (hlen : T.bufferSize ≤ (m.rendered mem).length) (f : CFormatter T) :
    ∃ f', format mem (.ofValues m.elements h) f = .error .bufferOverflow f' :=
  format_too_long mem (matches_ofValues h hc) (complete_ofValues h)
    (by rwa [textOfSlots_ofValues h mem]) f

theorem format_uncastable (hc : ¬ m.Castable) (mem : Mem) (f : CFormatter T) :
    ∃ e f', format mem (.ofValues m.elements h) f = .error e f' := by
  simp only [Message.Castable, not_forall, Decidable.not_not] at hc
  obtain ⟨v, hv, n, hn⟩ := hc
  refine format_throws mem (a := .store v) ?_
    (fun w => ⟨_, _, Argument.insert_charArray mem hn w⟩) f
  have hbody := (body_stop_of_elements m
    (List.replicate (T.paramSize - m.elements.length) .default)).1
  show Argument.store v ∈ body (m.elements.map .store ++ _)
  rw [hbody]
  exact List.mem_map_of_mem hv

/-- The two ways formatting a message can end. -/
theorem format_ofValues (mem : Mem) (f : CFormatter T) :
    (m.Formats T mem ∧
      ∃ f', format mem (.ofValues m.elements h) f = .ok (some (m.rendered mem ++ [NUL])) f') ∨
    (¬ m.Formats T mem ∧ ∃ e f', format mem (.ofValues m.elements h) f = .error e f') := by
  by_cases hc : m.Castable
  · rcases Nat.lt_or_ge (m.rendered mem).length T.bufferSize with hlen | hlen
    · obtain ⟨f', hf', -⟩ := format_message h hc mem hlen f
      exact .inl ⟨⟨hc, hlen⟩, f', hf'⟩
    · obtain ⟨f', hf'⟩ := format_message_too_long h hc mem hlen f
      exact .inr ⟨fun hF => absurd hF.2 (Nat.not_lt.mpr hlen), _, f', hf'⟩
  · exact .inr ⟨fun hF => hc hF.1, format_uncastable h hc mem f⟩

end OfValues

/-! ## What a reader expects -/

/-- The values a message is normally made of: integers, characters, C strings
and string literals, the three levels, time points and null pointers. -/
def Ordinary (v : Value) : Prop := v.ty ≠ .arrayEndMarker ∧ Printable v.ty v.val

/-- The text of a value and a space; nothing for a null pointer. -/
def field (mem : Mem) (v : Value) : List Char :=
  match textOf mem v.ty v.val with
  | some text => text ++ [' ']
  | none => []

/-- The line a reader expects of a message. -/
def Message.line (mem : Mem) (m : Message) : List Char :=
  (m.contents.map (field mem)).flatten ++ ['\n']

theorem heldText_eq_field (mem : Mem) {v : Value} (hv : Ordinary v) :
    heldText mem v.ty v.val = field mem v := by
  unfold field
  cases ht : textOf mem v.ty v.val with
  | some text => exact heldText_of_textOf ht hv.2
  | none =>
      by_cases hnull : v.ty = .nullptrT
      · obtain ⟨t, v, hs⟩ := v
        cases hnull
        rfl
      · obtain ⟨text, htext⟩ := exists_textOf mem hnull hv.1 hv.2
        rw [ht] at htext
        cases htext

theorem shown_of_ordinary {m : Message} (h : ∀ v ∈ m.contents, Ordinary v) :
    m.shown = m.contents :=
  Message.shown_of_noMarker fun v hv => (h v hv).1

theorem castable_of_ordinary {m : Message} (h : ∀ v ∈ m.contents, Ordinary v) : m.Castable := by
  intro v hv n hn
  rw [shown_of_ordinary h] at hv
  have hp := (h v hv).2
  obtain ⟨t, v, hs⟩ := v
  cases hn
  exact hp

theorem rendered_eq_line (mem : Mem) {m : Message} (h : ∀ v ∈ m.contents, Ordinary v) :
    m.rendered mem = m.line mem := by
  unfold Message.rendered Message.line
  rw [shown_of_ordinary h, List.map_congr_left fun v hv => heldText_eq_field mem (h v hv)]

theorem ordinary_of_int {v : Value} (h : ∃ t, v.ty = .int t) : Ordinary v := by
  obtain ⟨t, ht⟩ := h
  obtain ⟨ty, v, hs⟩ := v
  cases ht
  exact ⟨(by intro h; cases h), trivial⟩

theorem ordinary_contents {m : Message} (hid : ∃ t, m.threadId.ty = .int t)
    (hl : m.level.Named) (hargs : ∀ v ∈ m.arg0 :: m.args, Ordinary v) :
    ∀ v ∈ m.contents, Ordinary v := by
  refine Message.forall_mem_contents.mpr ⟨?_, ordinary_of_int hid, ⟨?_, hl⟩, ⟨?_, trivial⟩,
    hargs _ List.mem_cons_self, fun v hv => hargs v (List.mem_cons_of_mem _ hv)⟩
  · intro t _
    exact ⟨(by intro h; cases h), trivial⟩
  · intro h
    cases h
  · intro h
    cases h

/-! ## `write`, then `format` -/

namespace CLogger

/-- What a call puts on the queue is the array of its elements. -/
theorem write_queue_eq_push {lg : CLogger T} {alloc : Nat → Bool} {accept : Bool} {t : Tid}
    {m : Message} {p : ArgumentArray T}
    (h : (lg.write alloc accept t m).2.queue = lg.queue.push t p) :
    ∃ hfit : m.elements.length ≤ T.paramSize, p = .ofValues m.elements hfit := by
  unfold write at h
  split at h
  · exact absurd h.symm (Lanes.push_ne_self _ _ _)
  · next p' hp =>
      obtain ⟨-, -, hfit, rfl⟩ := prepare_eq_full.mp hp
      refine ⟨hfit, ?_⟩
      cases accept with
      | true => exact (Lanes.push_inj h).symm
      | false => exact absurd h.symm (Lanes.push_ne_self _ _ _)
  · exact absurd h.symm (Lanes.push_ne_self _ _ _)
  · exact absurd h.symm (Lanes.push_ne_self _ _ _)

/-- A call that may pass, with memory and room, enqueues. -/
theorem write_of_fits {lg : CLogger T} {m : Message} {alloc : Nat → Bool} (t : Tid)
    (hl : lg.level ≤ m.level.underlying) (hfit : m.elements.length ≤ T.paramSize)
    (ha : ∀ i, alloc i = true) :
    lg.write alloc true t m =
      (.returned true, { lg with queue := lg.queue.push t (.ofValues m.elements hfit) }) := by
  have hp : prepare alloc lg.level m = .full (.ofValues m.elements hfit) :=
    prepare_eq_full.mpr ⟨fun _ => hl, fun i _ => ha i, hfit, rfl⟩
  unfold write
  rw [hp]
  rfl

/-- Whatever a call enqueues is formatted to the line a reader expects of it,
whatever the formatter did before; and with memory and room a call enqueues. -/
theorem write_format (lg : CLogger T) (t : Tid) (m : Message) (mem : Mem)
    (hid : ∃ i, m.threadId.ty = .int i) (hnamed : m.level.Named)
    (hl : lg.level ≤ m.level.underlying) (hargs : ∀ v ∈ m.arg0 :: m.args, Ordinary v)
    (hfit : m.elements.length ≤ T.paramSize) (hlen : (m.line mem).length < T.bufferSize) :
    (∀ (alloc : Nat → Bool) (accept : Bool) (p : ArgumentArray T),
      (lg.write alloc accept t m).2.queue = lg.queue.push t p →
        ∀ history : List (Mem × ArgumentArray T), ∃ f',
          format mem p (replay history) = .ok (some (m.line mem ++ [NUL])) f' ∧
            f'.data = m.line mem) ∧
    (∀ alloc : Nat → Bool, (∀ i, alloc i = true) → ∃ p,
      lg.write alloc true t m = (.returned true, { lg with queue := lg.queue.push t p })) := by
  have hord := ordinary_contents hid hnamed hargs
  constructor
  · intro alloc accept p hq history
    obtain ⟨hfit, rfl⟩ := write_queue_eq_push hq
    rw [← rendered_eq_line mem hord] at hlen ⊢
    exact format_message hfit (castable_of_ordinary hord) mem hlen (replay history)
  · intro alloc ha
    exact ⟨_, write_of_fits t hl hfit ha⟩

/-- A call with a time point that fills all sixteen slots. -/
def brimful : Message where
  time := some 1000000
  threadId := .ofInt .int32 42
  level := .warn
  position := 0
  arg0 := .ofInt .int8 (-128)
  args := ⟨.nullptrT, (), rfl⟩ :: List.replicate 9 (.ofInt .uint64 (-1))

theorem write_format_brimful :
    ∃ p f', ((init loggerTraits .info).write (fun _ => true) true 0 brimful).2.queue =
        (init loggerTraits .info).queue.push 0 p ∧
      format .blank p (replay []) = .ok (some (brimful.line .blank ++ [NUL])) f' := by
  have hmain := write_format (init loggerTraits .info) 0 brimful .blank ⟨.int32, rfl⟩
    (by decide) (by decide)
    (by
      intro v hv
      simp only [brimful, List.mem_cons, List.mem_replicate] at hv
      rcases hv with rfl | rfl | ⟨-, rfl⟩ <;> exact ⟨by decide, trivial⟩)
    (by decide) (by decide +kernel)
  obtain ⟨p, hp⟩ := hmain.2 (fun _ => true) fun _ => rfl
  obtain ⟨f', hf', -⟩ := hmain.1 (fun _ => true) true p (by rw [hp]) []
  exact ⟨p, f', by rw [hp], hf'⟩

end CLogger

end Rtlog
