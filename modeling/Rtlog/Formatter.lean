/-
# `Rtlog.Formatter` — from an argument array to a line

`Formatter.hpp`.  The formatter writes into an array of fixed size that it owns
and reuses; its whole state is therefore the writer, a `FixedBuffer`.  `format`
walks the slots and stops at the first that is empty or holds an end marker:

    empty slot, or no slot left   `NULL`, and `c_str` is not called
    end marker                    the newline is inserted, then `c_str`

`c_str` needs one character more than is stored, so the two ways of stopping
have different length conditions.  `CFormatter.format_exact` puts the three
outcomes side by side for every array; the two facts it rests on are that
inserting the slots before the stop appends their texts (`formatLoop_pass`,
`formatLoop_overflow`) and that nothing behind the stop is read
(`formatLoop_upToStop`).

A non-`NULL` result is modelled by the characters it points at, terminator
included.
-/
import Rtlog.Rendering

namespace Rtlog

variable {T : LoggerTraits}

/-- `ArgumentArrayT`: as many slots as the traits say. -/
structure ArgumentArray (T : LoggerTraits) where
  slots : List Argument
  size_eq : slots.length = T.paramSize

/-- The formatter's state: `m_Writer` over `m_Buffer`. -/
abbrev CFormatter (T : LoggerTraits) := FixedBuffer Char T.bufferSize

namespace CFormatter

open FixedBuffer (Writes)

/-- `m_Writer.clear()`. -/
def clear : EStateM Exn (CFormatter T) Unit :=
  set (FixedBuffer.empty : CFormatter T)

/-- `m_Writer.c_str()`: room for the terminator is reserved first. -/
def cStr : EStateM Exn (CFormatter T) (List Char) := fun w =>
  if w.data.length + 1 ≤ T.bufferSize then .ok (w.data ++ [NUL]) w
  else .error .bufferOverflow w

/-- `CFormatterT::get`. -/
def get : EStateM Exn (CFormatter T) (List Char) := cStr

/-- The loop of `format`, from some slot on. -/
def formatLoop (mem : Mem) : List Argument → EStateM Exn (CFormatter T) (Option (List Char))
  | [] => return none
  | elem :: rest => do
      if elem.empty then
        return none
      elem.insert mem
      if elem.isType .arrayEndMarker then
        return some (← cStr)
      formatLoop mem rest

/-- `CFormatterT::format`. -/
def format (mem : Mem) (array : ArgumentArray T) :
    EStateM Exn (CFormatter T) (Option (List Char)) := do
  clear
  formatLoop mem array.slots

/-- The state a call leaves, whether it returned or threw. -/
def after {α : Type} : EStateM.Result Exn (CFormatter T) α → CFormatter T
  | .ok _ f => f
  | .error _ f => f

/-- A formatter after a history of calls. -/
def replay (history : List (Mem × ArgumentArray T)) : CFormatter T :=
  history.foldl (fun f call => after (format call.1 call.2 f)) FixedBuffer.empty

/-! ## Where the loop stops -/

/-- The loop goes no further than this slot. -/
def stops (elem : Argument) : Bool := elem.empty || elem.isType .arrayEndMarker

/-- The slots before the first that stops the loop. -/
def body (slots : List Argument) : List Argument := slots.takeWhile fun a => !stops a

/-- The first slot that stops the loop, if there is one. -/
def stop? (slots : List Argument) : Option Argument :=
  (slots.dropWhile fun a => !stops a).head?

/-- The slots the loop can look at. -/
def upToStop (slots : List Argument) : List Argument := body slots ++ (stop? slots).toList

/-- The text of a run of slots. -/
def textOfSlots (mem : Mem) (slots : List Argument) : List Char :=
  (slots.map (Argument.rendered mem)).flatten

theorem stops_of_mem_body {slots : List Argument} {a : Argument} (h : a ∈ body slots) :
    stops a = false := by
  simpa using List.mem_takeWhile_imp h

theorem stops_of_stop? {slots : List Argument} {a : Argument} (h : stop? slots = some a) :
    stops a = true := by
  unfold stop? at h
  have := List.head?_dropWhile_not (fun a => !stops a) slots
  rw [h] at this
  simpa using this

/-- The slots, cut at the stop. -/
theorem exists_eq_body_append (slots : List Argument) :
    ∃ rest, slots = body slots ++ rest ∧ rest.head? = stop? slots :=
  ⟨slots.dropWhile fun a => !stops a, (List.takeWhile_append_dropWhile).symm, rfl⟩

theorem mem_of_mem_upToStop {slots : List Argument} {a : Argument} (h : a ∈ upToStop slots) :
    a ∈ slots := by
  obtain ⟨rest, hslots, hrest⟩ := exists_eq_body_append slots
  rw [hslots]
  rcases List.mem_append.mp h with h | h
  · exact List.mem_append_left _ h
  · refine List.mem_append_right _ (List.mem_of_mem_head? ?_)
    rw [hrest]
    simpa using h

/-- Nothing behind the first stop is read. -/
theorem formatLoop_upToStop (mem : Mem) (slots : List Argument) :
    (formatLoop mem (upToStop slots) : EStateM Exn (CFormatter T) _) = formatLoop mem slots := by
  induction slots with
  | nil => rfl
  | cons a slots ih =>
      by_cases hs : stops a = true
      · have : upToStop (a :: slots) = [a] := by simp [upToStop, body, stop?, hs]
        rw [this]
        unfold formatLoop
        by_cases he : a.empty = true
        · simp [he]
        · have hm : a.isType .arrayEndMarker = true := by simpa [stops, he] using hs
          simp [he, hm]
      · have hcut : upToStop (a :: slots) = a :: upToStop slots := by
          simp [upToStop, body, stop?, hs]
        rw [hcut]
        unfold formatLoop
        rw [ih]

theorem format_congr {mem : Mem} {array array' : ArgumentArray T}
    (h : upToStop array.slots = upToStop array'.slots) (f f' : CFormatter T) :
    format mem array f = format mem array' f' := by
  have hloop : (formatLoop mem array.slots : EStateM Exn (CFormatter T) _) =
      formatLoop mem array'.slots := by
    rw [← formatLoop_upToStop, h, formatLoop_upToStop]
  show formatLoop mem array.slots FixedBuffer.empty = formatLoop mem array'.slots FixedBuffer.empty
  rw [hloop]

/-! ## The loop, up to the stop -/

theorem textOfSlots_append (mem : Mem) (l l' : List Argument) :
    textOfSlots mem (l ++ l') = textOfSlots mem l ++ textOfSlots mem l' := by
  simp [textOfSlots]

theorem textOfSlots_cons (mem : Mem) (a : Argument) (l : List Argument) :
    textOfSlots mem (a :: l) = a.rendered mem ++ textOfSlots mem l := rfl

theorem writes_of_not_stops (mem : Mem) {a : Argument} (hm : a.Matches)
    (hs : stops a = false) :
    Writes Exn.bufferOverflow (a.insert mem : EStateM Exn (CFormatter T) Unit)
      (a.rendered mem) := by
  refine writes_insert hm ?_
  simp only [stops, Bool.or_eq_false_iff] at hs
  exact hs.1

/-- A turn of the loop on a slot that does not stop it. -/
theorem formatLoop_cons {mem : Mem} {a : Argument} {rest : List Argument}
    (hs : stops a = false) :
    (formatLoop mem (a :: rest) : EStateM Exn (CFormatter T) _) =
      (do a.insert mem; formatLoop mem rest) := by
  obtain ⟨he, hm⟩ : a.empty = false ∧ a.isType .arrayEndMarker = false := by
    simpa [stops] using hs
  rw [formatLoop]
  simp [he, hm]

section Pass

variable {mem : Mem} {rest : List Argument}

/-- Slots that do not stop the loop and fit are appended. -/
theorem formatLoop_pass : ∀ {l : List Argument}, (∀ a ∈ l, a.Matches) →
    (∀ a ∈ l, stops a = false) → ∀ (w : CFormatter T)
    (h : w.data.length + (textOfSlots mem l).length ≤ T.bufferSize),
      formatLoop mem (l ++ rest) w = formatLoop mem rest (w.extend (textOfSlots mem l) h) := by
  intro l
  induction l with
  | nil =>
      intro _ _ w h
      congr 1
      ext1
      simp [textOfSlots]
  | cons a l ih =>
      intro hm hs w h
      have hroom := h
      rw [textOfSlots_cons, List.length_append] at hroom
      have hwrites := writes_of_not_stops mem (T := T) (hm a List.mem_cons_self)
        (hs a List.mem_cons_self)
      rw [List.cons_append, formatLoop_cons (hs a List.mem_cons_self),
        EStateM.bind_apply_of_ok (hwrites.fits w (by omega)),
        ih (fun b hb => hm b (List.mem_cons_of_mem _ hb))
          (fun b hb => hs b (List.mem_cons_of_mem _ hb)) _
          (by rw [FixedBuffer.extend_data, List.length_append]; omega)]
      congr 1
      ext1
      simp [textOfSlots_cons]

/-- Slots that do not stop the loop and do not fit make it throw. -/
theorem formatLoop_overflow : ∀ {l : List Argument}, (∀ a ∈ l, a.Matches) →
    (∀ a ∈ l, stops a = false) → ∀ (w : CFormatter T),
    T.bufferSize < w.data.length + (textOfSlots mem l).length →
      ∃ w', formatLoop mem (l ++ rest) w = .error .bufferOverflow w' := by
  intro l
  induction l with
  | nil =>
      intro _ _ w h
      have := w.size_le
      simp only [textOfSlots, List.map_nil, List.flatten_nil, List.length_nil] at h
      omega
  | cons a l ih =>
      intro hm hs w h
      rw [textOfSlots_cons, List.length_append] at h
      have hwrites := writes_of_not_stops mem (T := T) (hm a List.mem_cons_self)
        (hs a List.mem_cons_self)
      rw [List.cons_append, formatLoop_cons (hs a List.mem_cons_self)]
      by_cases hfit : w.data.length + (a.rendered mem).length ≤ T.bufferSize
      · rw [EStateM.bind_apply_of_ok (hwrites.fits w hfit)]
        refine ih (fun b hb => hm b (List.mem_cons_of_mem _ hb))
          (fun b hb => hs b (List.mem_cons_of_mem _ hb)) _ ?_
        rw [FixedBuffer.extend_data, List.length_append]
        omega
      · obtain ⟨w', hw'⟩ := hwrites.full w (Nat.not_le.mp hfit)
        exact ⟨w', EStateM.bind_apply_of_error hw'⟩

/-- A slot that cannot be inserted at all makes it throw as well. -/
theorem formatLoop_throws : ∀ {l : List Argument}, (∀ a ∈ l, stops a = false) →
    (∃ a ∈ l, ∀ w : CFormatter T, ∃ e w', a.insert mem w = .error e w') →
      ∀ w : CFormatter T, ∃ e w', formatLoop mem (l ++ rest) w = .error e w' := by
  intro l
  induction l with
  | nil => rintro _ ⟨a, ha, -⟩; cases ha
  | cons b l ih =>
      rintro hs ⟨a, ha, hthrows⟩ w
      rw [List.cons_append, formatLoop_cons (hs b List.mem_cons_self)]
      cases hb : (b.insert mem w : EStateM.Result Exn (CFormatter T) Unit) with
      | error e w' => exact ⟨e, w', EStateM.bind_apply_of_error hb⟩
      | ok u w' =>
          rw [EStateM.bind_apply_of_ok hb]
          rcases List.mem_cons.mp ha with rfl | ha
          · obtain ⟨e, w₁, hw₁⟩ := hthrows w
            rw [hb] at hw₁
            cases hw₁
          · exact ih (fun c hc => hs c (List.mem_cons_of_mem _ hc)) ⟨a, ha, hthrows⟩ w'

end Pass

/-! ## The three outcomes -/

/-- The loop ends at an empty slot, or behind the last slot. -/
def Incomplete (slots : List Argument) : Prop := ∀ a, stop? slots = some a → a.empty = true

/-- The loop ends at an end marker. -/
def Complete (slots : List Argument) : Prop := ∃ a, stop? slots = some a ∧ a.empty = false

theorem incomplete_or_complete (slots : List Argument) : Incomplete slots ∨ Complete slots := by
  by_cases h : Incomplete slots
  · exact .inl h
  · simp only [Incomplete, not_forall, Bool.not_eq_true] at h
    obtain ⟨a, ha, he⟩ := h
    exact .inr ⟨a, ha, he⟩

theorem Complete.not_incomplete {slots : List Argument} (h : Complete slots) :
    ¬ Incomplete slots := by
  obtain ⟨a, ha, he⟩ := h
  intro hi
  rw [hi a ha] at he
  cases he

theorem isType_marker_of_stop? {slots : List Argument} {a : Argument}
    (h : stop? slots = some a) (he : a.empty = false) : a.isType .arrayEndMarker = true := by
  have := stops_of_stop? h
  rwa [stops, he, Bool.false_or] at this

theorem body_stops {slots : List Argument} : ∀ a ∈ body slots, stops a = false :=
  fun _ h => stops_of_mem_body h

/-- An end marker prints as a newline. -/
theorem rendered_marker (mem : Mem) {a : Argument} (hm : a.Matches) (he : a.empty = false)
    (ht : a.isType .arrayEndMarker = true) : a.rendered mem = ['\n'] := by
  obtain ⟨any, tag⟩ := a
  cases any with
  | none => cases he
  | some p =>
      obtain ⟨t, v⟩ := p
      obtain ⟨-, htag⟩ := hm _ rfl
      have hend : tag = .endMarkerType := by simpa [Argument.isType, argType] using ht
      subst hend
      cases t with
      | arrayEndMarker => rfl
      | int t => cases t <;> cases htag
      | logLevelType l => rcases argType_logLevelType htag with h | h | h <;> cases h
      | _ => cases htag

theorem formatLoop_null (mem : Mem) {rest : List Argument}
    (h : ∀ a, rest.head? = some a → a.empty = true) (w : CFormatter T) :
    formatLoop mem rest w = .ok none w := by
  cases rest with
  | nil => rfl
  | cons a rest =>
      rw [formatLoop, if_pos (h a rfl)]
      rfl

theorem formatLoop_marker (mem : Mem) {a : Argument} {rest : List Argument}
    (he : a.empty = false) (ht : a.isType .arrayEndMarker = true) :
    (formatLoop mem (a :: rest) : EStateM Exn (CFormatter T) _) =
      (do a.insert mem; return some (← cStr)) := by
  rw [formatLoop]
  simp [he, ht]

section Outcomes

variable (mem : Mem) {array : ArgumentArray T}

/-- A call that gets past the slots before the stop. -/
theorem format_of_fits (hm : ∀ a ∈ body array.slots, a.Matches)
    (hlen : (textOfSlots mem (body array.slots)).length ≤ T.bufferSize) (f : CFormatter T) :
    ∃ rest, ∃ w : CFormatter T, rest.head? = stop? array.slots ∧
      w.data = textOfSlots mem (body array.slots) ∧
      format mem array f = formatLoop mem rest w := by
  obtain ⟨rest, hslots, hrest⟩ := exists_eq_body_append array.slots
  have hroom : (FixedBuffer.empty : CFormatter T).data.length +
      (textOfSlots mem (body array.slots)).length ≤ T.bufferSize := by simpa using hlen
  refine ⟨rest, FixedBuffer.empty.extend _ hroom, hrest, by simp, ?_⟩
  calc format mem array f = formatLoop mem (body array.slots ++ rest) FixedBuffer.empty := by
        rw [← hslots]; rfl
    _ = _ := formatLoop_pass hm body_stops _ hroom

/-- A call that does not. -/
theorem format_of_overflow (hm : ∀ a ∈ body array.slots, a.Matches)
    (hlen : T.bufferSize < (textOfSlots mem (body array.slots)).length) (f : CFormatter T) :
    ∃ f', format mem array f = .error .bufferOverflow f' := by
  obtain ⟨rest, hslots, -⟩ := exists_eq_body_append array.slots
  have hroom : T.bufferSize < (FixedBuffer.empty : CFormatter T).data.length +
      (textOfSlots mem (body array.slots)).length := by simpa using hlen
  obtain ⟨f', hf'⟩ := formatLoop_overflow hm body_stops _ hroom
  refine ⟨f', ?_⟩
  calc format mem array f = formatLoop mem (body array.slots ++ rest) FixedBuffer.empty := by
        rw [← hslots]; rfl
    _ = _ := hf'

/-- A call that meets a slot it cannot insert. -/
theorem format_throws {a : Argument} (ha : a ∈ body array.slots)
    (hthrows : ∀ w : CFormatter T, ∃ e w', a.insert mem w = .error e w') (f : CFormatter T) :
    ∃ e f', format mem array f = .error e f' := by
  obtain ⟨rest, hslots, -⟩ := exists_eq_body_append array.slots
  have hloop : format mem array f =
      formatLoop mem (body array.slots ++ rest) FixedBuffer.empty := by
    rw [← hslots]
    rfl
  rw [hloop]
  exact formatLoop_throws body_stops ⟨a, ha, hthrows⟩ _

theorem format_null (hm : ∀ a ∈ body array.slots, a.Matches) (hi : Incomplete array.slots)
    (hlen : (textOfSlots mem (body array.slots)).length ≤ T.bufferSize) (f : CFormatter T) :
    ∃ f', format mem array f = .ok none f' := by
  obtain ⟨rest, w, hrest, -, hrun⟩ := format_of_fits mem hm hlen f
  exact ⟨w, hrun.trans (formatLoop_null mem (by rwa [hrest]) w)⟩

/-- The text of the slots up to an end marker: the marker adds a newline. -/
theorem textOfSlots_upToStop {slots : List Argument} {a : Argument}
    (ha : stop? slots = some a) (he : a.empty = false) (hm : a.Matches) :
    textOfSlots mem (upToStop slots) = textOfSlots mem (body slots) ++ ['\n'] := by
  have ht := isType_marker_of_stop? ha he
  rw [upToStop, ha, textOfSlots_append]
  simp [textOfSlots, rendered_marker mem hm he ht]

/-- The call returns the text of the slots up to the end marker, if there is
room for it and for the terminator. -/
theorem format_text (hm : ∀ a ∈ upToStop array.slots, a.Matches) (hc : Complete array.slots)
    (hlen : (textOfSlots mem (upToStop array.slots)).length < T.bufferSize)
    (f : CFormatter T) :
    ∃ f', format mem array f =
        .ok (some (textOfSlots mem (upToStop array.slots) ++ [NUL])) f' ∧
      f'.data = textOfSlots mem (upToStop array.slots) := by
  obtain ⟨a, ha, he⟩ := hc
  have ham : a.Matches := hm a (by simp [upToStop, ha])
  have hbody : ∀ b ∈ body array.slots, b.Matches := fun b hb => hm b (by simp [upToStop, hb])
  have htext := textOfSlots_upToStop mem ha he ham
  rw [htext] at hlen ⊢
  rw [List.length_append, List.length_singleton] at hlen
  obtain ⟨rest, w, hrest, hw, hrun⟩ := format_of_fits mem hbody (by omega) f
  rw [ha] at hrest
  obtain ⟨rest, rfl⟩ : ∃ rest', rest = a :: rest' := by
    cases rest with
    | nil => cases hrest
    | cons b rest => cases hrest; exact ⟨rest, rfl⟩
  have ht := isType_marker_of_stop? ha he
  have hnl := rendered_marker mem ham he ht
  have hroom : w.data.length + (a.rendered mem).length ≤ T.bufferSize := by
    rw [hnl, hw, List.length_singleton]
    omega
  have hdata : (w.extend _ hroom).data = textOfSlots mem (body array.slots) ++ ['\n'] := by
    rw [FixedBuffer.extend_data, hw, hnl]
  refine ⟨w.extend _ hroom, ?_, hdata⟩
  rw [hrun, formatLoop_marker mem he ht,
    EStateM.bind_apply_of_ok ((writes_insert ham he).fits w hroom)]
  have hstr : (cStr (w.extend _ hroom)) =
      .ok ((w.extend _ hroom).data ++ [NUL]) (w.extend _ hroom) := by
    refine if_pos ?_
    rw [hdata, List.length_append, List.length_singleton]
    omega
  rw [EStateM.bind_apply_of_ok hstr, hdata]
  rfl

/-- Without that room it throws. -/
theorem format_too_long (hm : ∀ a ∈ upToStop array.slots, a.Matches)
    (hc : Complete array.slots)
    (hlen : T.bufferSize ≤ (textOfSlots mem (upToStop array.slots)).length)
    (f : CFormatter T) : ∃ f', format mem array f = .error .bufferOverflow f' := by
  obtain ⟨a, ha, he⟩ := hc
  have ham : a.Matches := hm a (by simp [upToStop, ha])
  have hbody : ∀ b ∈ body array.slots, b.Matches := fun b hb => hm b (by simp [upToStop, hb])
  rw [textOfSlots_upToStop mem ha he ham, List.length_append, List.length_singleton] at hlen
  by_cases hfit : (textOfSlots mem (body array.slots)).length ≤ T.bufferSize
  · obtain ⟨rest, w, hrest, hw, hrun⟩ := format_of_fits mem hbody hfit f
    rw [ha] at hrest
    obtain ⟨rest, rfl⟩ : ∃ rest', rest = a :: rest' := by
      cases rest with
      | nil => cases hrest
      | cons b rest => cases hrest; exact ⟨rest, rfl⟩
    have ht := isType_marker_of_stop? ha he
    have hnl := rendered_marker mem ham he ht
    rw [hrun, formatLoop_marker mem he ht]
    by_cases hroom : w.data.length + (a.rendered mem).length ≤ T.bufferSize
    · -- the newline fits, the terminator does not
      refine ⟨w.extend _ hroom, ?_⟩
      rw [EStateM.bind_apply_of_ok ((writes_insert ham he).fits w hroom)]
      refine EStateM.bind_apply_of_error (if_neg ?_)
      rw [FixedBuffer.extend_data, List.length_append, hnl, hw, List.length_singleton]
      omega
    · obtain ⟨w', hw'⟩ := (writes_insert ham he).full w (Nat.not_le.mp hroom)
      exact ⟨w', EStateM.bind_apply_of_error hw'⟩
  · exact format_of_overflow mem hbody (Nat.not_le.mp hfit) f

/-! ## `format`, exactly

Three cases that exclude each other, one outcome in each.  The exact
description of `format` reads them off in both directions. -/

theorem format_cases (hm : ∀ a ∈ array.slots, a.Matches) (f : CFormatter T) :
    (Incomplete array.slots ∧ (textOfSlots mem (body array.slots)).length ≤ T.bufferSize ∧
      ∃ f', format mem array f = .ok none f') ∨
    (Complete array.slots ∧ (textOfSlots mem (upToStop array.slots)).length < T.bufferSize ∧
      ∃ f', format mem array f = .ok (some (textOfSlots mem (upToStop array.slots) ++ [NUL])) f' ∧
        f'.data = textOfSlots mem (upToStop array.slots)) ∨
    (¬ (Incomplete array.slots ∧
        (textOfSlots mem (body array.slots)).length ≤ T.bufferSize) ∧
      ¬ (Complete array.slots ∧
        (textOfSlots mem (upToStop array.slots)).length < T.bufferSize) ∧
      ∃ f', format mem array f = .error .bufferOverflow f') := by
  have hup : ∀ a ∈ upToStop array.slots, a.Matches := fun a ha => hm a (mem_of_mem_upToStop ha)
  have hbody : ∀ a ∈ body array.slots, a.Matches := fun a ha =>
    hup a (List.mem_append_left _ ha)
  rcases incomplete_or_complete array.slots with hi | hc
  · have hnc : ¬ Complete array.slots := fun hc => hc.not_incomplete hi
    by_cases hlen : (textOfSlots mem (body array.slots)).length ≤ T.bufferSize
    · exact .inl ⟨hi, hlen, format_null mem hbody hi hlen f⟩
    · exact .inr (.inr ⟨fun h => hlen h.2, fun h => hnc h.1,
        format_of_overflow mem hbody (Nat.not_le.mp hlen) f⟩)
  · by_cases hlen : (textOfSlots mem (upToStop array.slots)).length < T.bufferSize
    · exact .inr (.inl ⟨hc, hlen, format_text mem hup hc hlen f⟩)
    · exact .inr (.inr ⟨fun h => hc.not_incomplete h.1, fun h => hlen h.2,
        format_too_long mem hup hc (Nat.not_lt.mp hlen) f⟩)

theorem format_exact (hm : ∀ a ∈ array.slots, a.Matches)
    (history : List (Mem × ArgumentArray T)) :
    ((∃ f', format mem array (replay history) = .ok none f') ↔
      Incomplete array.slots ∧
        (textOfSlots mem (body array.slots)).length ≤ T.bufferSize) ∧
    (∀ s, (∃ f', format mem array (replay history) = .ok (some (s ++ [NUL])) f' ∧ f'.data = s) ↔
      Complete array.slots ∧ (textOfSlots mem (upToStop array.slots)).length < T.bufferSize ∧
        s = textOfSlots mem (upToStop array.slots)) ∧
    ((∃ p f', format mem array (replay history) = .ok (some p) f') ↔
      Complete array.slots ∧
        (textOfSlots mem (upToStop array.slots)).length < T.bufferSize) ∧
    ((∃ e f', format mem array (replay history) = .error e f') ↔
      ¬ (Incomplete array.slots ∧
          (textOfSlots mem (body array.slots)).length ≤ T.bufferSize) ∧
        ¬ (Complete array.slots ∧
          (textOfSlots mem (upToStop array.slots)).length < T.bufferSize)) ∧
    (∀ (array' : ArgumentArray T) (history' : List (Mem × ArgumentArray T)),
      upToStop array'.slots = upToStop array.slots →
        format mem array' (replay history') = format mem array (replay history)) := by
  have hsame : ∀ (array' : ArgumentArray T) (history' : List (Mem × ArgumentArray T)),
      upToStop array'.slots = upToStop array.slots →
        format mem array' (replay history') = format mem array (replay history) :=
    fun _ _ h => format_congr h _ _
  obtain ⟨hi, hlen, f', hrun⟩ | ⟨hc, hlen, f', hrun, hdata⟩ | ⟨hni, hnc, f', hrun⟩ :=
    format_cases mem hm (replay history)
  · have hnc : ¬ Complete array.slots := fun hc => hc.not_incomplete hi
    refine ⟨?_, ?_, ?_, ?_, hsame⟩ <;> rw [hrun] <;> simp [hi, hlen, hnc]
  · have hni := hc.not_incomplete
    refine ⟨?_, fun s => ?_, ?_, ?_, hsame⟩ <;> rw [hrun]
    · simp [hni]
    · constructor
      · rintro ⟨f₁, h, hf⟩
        obtain ⟨-, rfl⟩ := EStateM.Result.ok.inj h
        exact ⟨hc, hlen, hf.symm.trans hdata⟩
      · rintro ⟨-, -, rfl⟩
        exact ⟨f', rfl, hdata⟩
    · simp [hc, hlen]
    · simp [hc, hlen]
  · refine ⟨?_, fun s => ?_, ?_, ?_, hsame⟩ <;> rw [hrun]
    · simpa using fun hi hlen => hni ⟨hi, hlen⟩
    · simpa using fun hc hlen _ => hnc ⟨hc, hlen⟩
    · simpa using fun hc hlen => hnc ⟨hc, hlen⟩
    · exact ⟨fun _ => ⟨hni, hnc⟩, fun _ => ⟨_, _, rfl⟩⟩

end Outcomes

/-- `42`, an end marker, and fourteen empty slots. -/
def fortyTwo : ArgumentArray loggerTraits where
  slots := .store (.ofInt .int32 42) :: ⟨some ⟨.arrayEndMarker, ()⟩, .endMarkerType⟩ ::
    List.replicate 14 .default
  size_eq := rfl

theorem matches_of_mem_fortyTwo : ∀ a ∈ fortyTwo.slots, a.Matches := by
  intro a ha
  simp only [fortyTwo, List.mem_cons, List.mem_replicate] at ha
  rcases ha with rfl | rfl | ⟨-, rfl⟩
  · exact Argument.store_matches (by intro n h; cases h)
  · rintro p ⟨⟩
    exact ⟨rfl, rfl⟩
  · exact Argument.matches_default

theorem format_exact_fortyTwo :
    ∃ f', format .blank fortyTwo (replay []) = .ok (some (['4', '2', ' ', '\n'] ++ [NUL])) f' ∧
      f'.data = ['4', '2', ' ', '\n'] :=
  ((format_exact .blank matches_of_mem_fortyTwo []).2.1 _).mpr
    ⟨⟨_, rfl, rfl⟩, by decide, rfl⟩

end CFormatter

end Rtlog
