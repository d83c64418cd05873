/-
# `Rtlog.Leftover` — what a call of `format` leaves in the buffer

`get` returns what the last call of `format` has left, and is declared
`noexcept`; inside it is a `c_str`, which needs room for a terminator.  So the
promise is about the fill level that calls of every outcome leave, those that
returned `NULL` and those that threw included.

`Argument.pieces?` is what `operator<<` inserts for an argument, piece by piece
(a text and a separator are two), for *every* argument: tag and payload need not
agree, and `none` is a cast that throws.  `arrayPieces` is what a call inserts
for an array, and `after_formatLoop` says that the call leaves in the buffer what
appending these pieces leaves, whatever its outcome.  The rest is the library's
`Pieces.full_iff`: the buffer is full, and `get` throws, exactly if some of the
first pieces together have its size (`get_iff`).
-/
import Rtlog.Formatter

namespace Rtlog

variable {T : LoggerTraits}

/-! ## The pieces of an argument -/

/-- The pieces of a payload that is cast to `t`: its text and a separator. -/
def castPieces (mem : Mem) (t : CppType) : Any → Option (List (List Char))
  | some ⟨u, v⟩ => if u = t then some [(textOf mem u v).getD [], [' ']] else none
  | none => none

/-- What `operator<<` inserts, in pieces; `none` if the cast throws. -/
def Argument.pieces? (mem : Mem) (arg : Argument) : Option (List (List Char)) :=
  match arg.type with
  | .nullType | .logInfoType | .logWarnType | .logCritType | .unknownType => some []
  | .endMarkerType => some [['\n']]
  | tag => (typeArg tag).bind fun t => castPieces mem t arg.any

section Insert

variable {cap : Nat} {mem : Mem} {arg : Argument}

/-- Inserting is appending the pieces, or throwing with nothing appended. -/
def InsertsPieces (mem : Mem) (cap : Nat) (arg : Argument) : Option (List (List Char)) → Prop
  | some ss => (arg.insert mem : EStateM Exn (FixedBuffer Char cap) Unit) =
      FixedBuffer.appendAll Exn.bufferOverflow ss
  | none => ∀ w : FixedBuffer Char cap, arg.insert mem w = .error .badAnyCast w

theorem insertsPieces_of_ret
    (h : (insertCase mem arg : EStateM Exn (FixedBuffer Char cap) Flow) = pure .ret) :
    InsertsPieces mem cap arg (some []) := by
  show Argument.insert mem arg = _
  rw [Argument.insert, h]
  simp [FixedBuffer.appendAll]

theorem insertsPieces_marker (any : Any) :
    InsertsPieces mem cap ⟨any, .endMarkerType⟩ (some [['\n']]) := by
  show Argument.insert mem ⟨any, .endMarkerType⟩ = _
  rw [Argument.insert, insertCase]
  simp [FixedBuffer.appendAll, put]

/-- A case that casts, inserts the text of the payload and breaks. -/
theorem insertsPieces_of_cast {t : CppType}
    (hcase : (insertCase mem arg : EStateM Exn (FixedBuffer Char cap) Flow) = (do
      let v ← anyCast t arg.any
      put ((textOf mem t v).getD [])
      return .brk)) :
    InsertsPieces mem cap arg (castPieces mem t arg.any) := by
  obtain ⟨any, tag⟩ := arg
  cases any with
  | none =>
      intro w
      rw [Argument.insert, hcase]
      rfl
  | some p =>
      obtain ⟨u, v⟩ := p
      rcases eq_or_ne u t with rfl | hne
      · simp only [castPieces, if_true]
        show Argument.insert mem ⟨some ⟨u, v⟩, tag⟩ = _
        rw [Argument.insert, hcase]
        simp [anyCast_same, FixedBuffer.appendAll, put]
      · simp only [castPieces, if_neg hne]
        intro w
        rw [Argument.insert, hcase]
        simp only [anyCast_of_ne v hne]
        rfl

theorem insertsPieces (mem : Mem) (cap : Nat) (arg : Argument) :
    InsertsPieces mem cap arg (arg.pieces? mem) := by
  obtain ⟨any, tag⟩ := arg
  cases tag with
  | nullType | logInfoType | logWarnType | logCritType | unknownType =>
      exact insertsPieces_of_ret rfl
  | endMarkerType => exact insertsPieces_marker any
  | logLevelType =>
      refine insertsPieces_of_cast (t := .logLevel) ?_
      simp only [insertCase, castArg]
      refine congrArg _ (funext fun l => ?_)
      show _ = (do put ((levelText l).getD []); return Flow.brk)
      rw [logLevelSignature_eq]
      cases levelText l with
      | some sig => rfl
      | none =>
          rw [Option.getD_none, put_nil]
          rfl
  | int64Type => exact insertsPieces_of_cast (t := .int .int64) rfl
  | uint64Type => exact insertsPieces_of_cast (t := .int .uint64) rfl
  | int32Type => exact insertsPieces_of_cast (t := .int .int32) rfl
  | uint32Type => exact insertsPieces_of_cast (t := .int .uint32) rfl
  | int16Type => exact insertsPieces_of_cast (t := .int .int16) rfl
  | uint16Type => exact insertsPieces_of_cast (t := .int .uint16) rfl
  | int8Type => exact insertsPieces_of_cast (t := .int .int8) rfl
  | uint8Type => exact insertsPieces_of_cast (t := .int .uint8) rfl
  | cStrType => exact insertsPieces_of_cast (t := .constCharPtr) rfl
  | charType => exact insertsPieces_of_cast (t := .char) rfl
  | timepointType => exact insertsPieces_of_cast (t := .timePoint) rfl

end Insert

/-! ## The pieces of an array -/

/-- What a call of `format` inserts for the slots, in pieces, if there is room. -/
def arrayPieces (mem : Mem) : List Argument → List (List Char)
  | [] => []
  | elem :: rest =>
      if elem.empty then []
      else
        match elem.pieces? mem with
        | none => []
        | some ss => if elem.isType .arrayEndMarker then ss else ss ++ arrayPieces mem rest

namespace CFormatter

/-- `c_str` writes behind what is stored, and moves nothing. -/
theorem cStr_cases (w : CFormatter T) :
    w.data.length ≠ T.bufferSize ∧ cStr w = .ok (w.data ++ [NUL]) w ∨
      w.data.length = T.bufferSize ∧ cStr w = .error .bufferOverflow w := by
  have hle := w.size_le
  by_cases h : w.data.length + 1 ≤ T.bufferSize
  · exact .inl ⟨by omega, if_pos h⟩
  · exact .inr ⟨by omega, if_neg h⟩

/-- The loop, past the test for an empty slot. -/
theorem formatLoop_of_nonempty {mem : Mem} {elem : Argument} {rest : List Argument}
    (he : elem.empty = false) :
    (formatLoop mem (elem :: rest) : EStateM Exn (CFormatter T) _) = (do
      elem.insert mem
      if elem.isType .arrayEndMarker then
        return some (← cStr)
      formatLoop mem rest) := by
  rw [formatLoop]
  simp [he]

/-- Programs that leave the same do so behind any program. -/
theorem after_seq {α β γ : Type} (p : EStateM Exn (CFormatter T) α)
    {k : EStateM Exn (CFormatter T) β} {k' : EStateM Exn (CFormatter T) γ}
    (h : ∀ w, after (k w) = after (k' w)) (w : CFormatter T) :
    after ((do let _ ← p; k) w) = after ((do let _ ← p; k') w) := by
  cases hp : p w with
  | ok v w' => rw [EStateM.bind_apply_of_ok hp, EStateM.bind_apply_of_ok hp, h]
  | error e w' =>
      rw [EStateM.bind_apply_of_error hp, EStateM.bind_apply_of_error hp]
      rfl

theorem after_cStr (w : CFormatter T) :
    after ((do return some (← cStr)) w) =
      after ((pure () : EStateM Exn (CFormatter T) Unit) w) := by
  obtain ⟨-, hc⟩ | ⟨-, hc⟩ := cStr_cases w
  · rw [EStateM.bind_apply_of_ok hc]
    rfl
  · rw [EStateM.bind_apply_of_error hc]
    rfl

/-- Whatever its outcome, the loop leaves what appending the pieces leaves. -/
theorem after_formatLoop (mem : Mem) : ∀ (slots : List Argument) (w : CFormatter T),
    after (formatLoop mem slots w) =
      after (FixedBuffer.appendAll Exn.bufferOverflow (arrayPieces mem slots) w) := by
  intro slots
  induction slots with
  | nil =>
      intro w
      rfl
  | cons elem rest ih =>
      intro w
      have hins := insertsPieces mem T.bufferSize elem
      rw [arrayPieces]
      cases he : elem.empty with
      | true =>
          rw [formatLoop, if_pos rfl, if_pos he]
          rfl
      | false =>
          simp only [Bool.false_eq_true, if_false]
          cases hp : elem.pieces? mem with
          | none =>
              rw [hp] at hins
              rw [formatLoop_of_nonempty he, EStateM.bind_apply_of_error (hins w)]
              rfl
          | some ss =>
              rw [hp] at hins
              rw [formatLoop_of_nonempty he, hins]
              cases hm : elem.isType .arrayEndMarker with
              | true =>
                  simp only [if_true]
                  refine (after_seq _ after_cStr w).trans ?_
                  rw [bind_pure_unit]
              | false =>
                  simp only [Bool.false_eq_true, if_false]
                  rw [FixedBuffer.appendAll_append]
                  exact after_seq _ ih w

/-- A formatter that has been called last with this array is full exactly if some
of the first pieces of the array fill the buffer. -/
theorem full_replay_iff (pre : List (Mem × ArgumentArray T)) (mem : Mem)
    (array : ArgumentArray T) :
    (replay (pre ++ [(mem, array)])).data.length = T.bufferSize ↔
      ∃ done, done <+: arrayPieces mem array.slots ∧ done.flatten.length = T.bufferSize := by
  obtain ⟨w, hpieces, hrun⟩ : ∃ w : CFormatter T,
      FixedBuffer.Pieces .empty (arrayPieces mem array.slots) w ∧
      (FixedBuffer.appendAll Exn.bufferOverflow (arrayPieces mem array.slots) .empty = .ok () w ∨
        FixedBuffer.appendAll Exn.bufferOverflow (arrayPieces mem array.slots) .empty =
          .error .bufferOverflow w) := FixedBuffer.appendAll_cases _ _
  have hreplay : replay (pre ++ [(mem, array)]) = w := by
    rw [replay, List.foldl_append]
    show after (formatLoop mem array.slots FixedBuffer.empty) = w
    rw [after_formatLoop]
    rcases hrun with hrun | hrun <;> rw [hrun] <;> rfl
  rw [hreplay, hpieces.full_iff]
  simp

/-- What a call of the loop returns is what `c_str` returns on what it leaves. -/
theorem cStr_of_formatLoop {mem : Mem} : ∀ {slots : List Argument} {w w' : CFormatter T}
    {p : List Char}, formatLoop mem slots w = .ok (some p) w' → cStr w' = .ok p w' := by
  intro slots
  induction slots with
  | nil =>
      intro w w' p h
      cases h
  | cons elem rest ih =>
      intro w w' p h
      cases he : elem.empty with
      | true =>
          rw [formatLoop, if_pos he] at h
          cases h
      | false =>
          rw [formatLoop_of_nonempty he] at h
          cases hins : (elem.insert mem w : EStateM.Result Exn (CFormatter T) Unit) with
          | error e w₁ =>
              rw [EStateM.bind_apply_of_error hins] at h
              cases h
          | ok u w₁ =>
              rw [EStateM.bind_apply_of_ok hins] at h
              cases hm : elem.isType .arrayEndMarker with
              | true =>
                  simp only [hm, if_true] at h
                  obtain ⟨-, hc⟩ | ⟨-, hc⟩ := cStr_cases w₁
                  · rw [EStateM.bind_apply_of_ok hc] at h
                    cases h
                    exact hc
                  · rw [EStateM.bind_apply_of_error hc] at h
                    cases h
              | false =>
                  simp only [hm, Bool.false_eq_true, if_false] at h
                  exact ih h

theorem get_of_format {pre : List (Mem × ArgumentArray T)} {mem : Mem} {array : ArgumentArray T}
    {p : List Char} {f : CFormatter T} (h : format mem array (replay pre) = .ok (some p) f) :
    get (replay (pre ++ [(mem, array)])) = .ok p f := by
  have hreplay : replay (pre ++ [(mem, array)]) = f := by
    rw [replay, List.foldl_append]
    show after (format mem array (replay pre)) = f
    rw [h]
    rfl
  rw [hreplay]
  exact cStr_of_formatLoop (show formatLoop mem array.slots FixedBuffer.empty = _ from h)

/-- After any sequence of calls of `format`, with any arrays: `get` does not throw,
and behind a call that returned a text it returns that text, exactly if no first
pieces of the last array together have the size of the buffer. -/
theorem get_iff (history : List (Mem × ArgumentArray T)) :
    ((∀ e f, get (replay history) ≠ .error e f) ∧
      ∀ pre mem array p f, history = pre ++ [(mem, array)] →
        format mem array (replay pre) = .ok (some p) f → get (replay history) = .ok p f) ↔
    ∀ mem array, history.getLast? = some (mem, array) →
      ∀ done, done <+: arrayPieces mem array.slots → done.flatten.length ≠ T.bufferSize := by
  have htext : ∀ pre mem array p f, history = pre ++ [(mem, array)] →
      format mem array (replay pre) = .ok (some p) f → get (replay history) = .ok p f := by
    rintro pre mem array p f rfl hf
    exact get_of_format hf
  rw [and_iff_left htext]
  rcases List.eq_nil_or_concat' history with rfl | ⟨pre, ⟨mem, array⟩, rfl⟩
  · refine iff_of_true ?_ ?_
    · intro e f h
      have hpos := T.bufferSize_pos
      obtain ⟨-, hc⟩ | ⟨hfull, -⟩ := cStr_cases (FixedBuffer.empty : CFormatter T)
      · rw [get, replay, List.foldl_nil, hc] at h
        cases h
      · rw [FixedBuffer.empty_data, List.length_nil] at hfull
        omega
    · intro mem array h
      cases h
  · have hlast : (pre ++ [(mem, array)]).getLast? = some (mem, array) := by simp
    constructor
    · intro hget mem' array' hl done hdone hlen
      rw [hlast] at hl
      cases hl
      have hfull := (full_replay_iff pre mem array).mpr ⟨done, hdone, hlen⟩
      obtain ⟨hne, -⟩ | ⟨-, hc⟩ := cStr_cases (replay (pre ++ [(mem, array)]))
      · exact hne hfull
      · exact hget _ _ hc
    · intro hpieces e f h
      obtain ⟨-, hc⟩ | ⟨hfull, -⟩ := cStr_cases (replay (pre ++ [(mem, array)]))
      · rw [get, hc] at h
        cases h
      · obtain ⟨done, hdone, hlen⟩ := (full_replay_iff pre mem array).mp hfull
        exact hpieces mem array hlast done hdone hlen

/-- A string of 1023 characters, wherever one looks. -/
def longStrings : Mem := fun _ => ⟨List.replicate 1023 'x', by
  intro h
  exact absurd (List.mem_replicate.mp h).2 (by decide)⟩

/-- A C string and no end marker. -/
def unterminated : ArgumentArray loggerTraits where
  slots := .store (.ofStr 1) :: List.replicate 15 .default
  size_eq := rfl

/-- With its separator the string fills the buffer, and `format` returns `NULL`. -/
theorem not_get :
    ¬ ∀ (T : LoggerTraits) (history : List (Mem × ArgumentArray T)) (e : Exn) (f : CFormatter T),
      get (replay history) ≠ .error e f := by
  intro h
  have hfull := (full_replay_iff [] longStrings unterminated).mpr
    ⟨[List.replicate 1023 'x', [' ']], List.prefix_rfl, by
      rw [List.flatten_cons, List.length_append, List.length_replicate]
      rfl⟩
  obtain ⟨hne, -⟩ | ⟨-, hc⟩ := cStr_cases (replay [(longStrings, unterminated)])
  · exact hne hfull
  · exact h _ _ _ _ hc

end CFormatter

end Rtlog
