/-
# `Rtlog.Agreement` — do the storing side and the formatting side agree?

For a value the caller passes, the producer stores a tag and a payload and the
consumer prints what the tag says the payload is.  The two sides agree on a
value when inserting what was stored appends the value's text and one space:
`InsertsText`.  They agree on every type the `ArgType` trait accepts except

    `char[N]`, not `const`        stored as `char*`, cast to `const char*`: throws
    `LogLevelType<L>`             no case in the switch: nothing is appended
    `LogLevel` off the enumerators no signature: only the space is appended

(`insertsText_iff`), and since `write` puts the elements into the slots in
order, the same holds of every position of every message
(`CLogger.insertsText_slot_iff`).
-/
import Rtlog.Filling

namespace Rtlog

variable {T : LoggerTraits}

/-- Inserting `a` prints `v`: in a writer with room it returns, with the text of
`v` and one space appended. -/
def InsertsText (mem : Mem) (v : Value) (a : Argument) : Prop :=
  ∃ text, textOf mem v.ty v.val = some text ∧
    ∀ (cap : Nat) (w : FixedBuffer Char cap)
      (room : w.data.length + (text ++ [' ']).length ≤ cap),
        a.insert mem w = .ok () (w.extend (text ++ [' ']) room)

/-- Some writer has room for a text and a space, and is empty. -/
theorem InsertsText.run_empty {mem : Mem} {v : Value} {a : Argument} (h : InsertsText mem v a) :
    ∃ cap, ∃ w w' : FixedBuffer Char cap, ∃ text, w.data = [] ∧
      w'.data = text ++ [' '] ∧ a.insert mem w = .ok () w' := by
  obtain ⟨text, -, hrun⟩ := h
  have room : (FixedBuffer.empty : FixedBuffer Char (text ++ [' ']).length).data.length +
      (text ++ [' ']).length ≤ (text ++ [' ']).length := by simp
  exact ⟨_, .empty, _, text, rfl, rfl, hrun _ _ room⟩

/-- Every printable value but a null pointer and an end marker has a text. -/
theorem exists_textOf (mem : Mem) {v : Value} (hnull : v.ty ≠ .nullptrT)
    (hend : v.ty ≠ .arrayEndMarker) (hp : Printable v.ty v.val) :
    ∃ text, textOf mem v.ty v.val = some text := by
  obtain ⟨t, v, hs⟩ := v
  cases t with
  | nullptrT => exact absurd rfl hnull
  | arrayEndMarker => exact absurd rfl hend
  | logLevelType l => exact hp.elim
  | logLevel => exact Option.isSome_iff_exists.mp (logLevelSignature_isSome.mpr hp)
  | _ => exact ⟨_, rfl⟩

theorem insertsText_iff (mem : Mem) {v : Value} (hnull : v.ty ≠ .nullptrT)
    (hend : v.ty ≠ .arrayEndMarker) :
    InsertsText mem v (.store v) ↔ Printable v.ty v.val := by
  constructor
  · intro h
    obtain ⟨t, v, hs⟩ := v
    cases t with
    | charArray n =>
        obtain ⟨cap, w, w', text, -, -, hrun⟩ := h.run_empty
        rw [Argument.insert_charArray mem rfl] at hrun
        cases hrun
    | logLevelType l =>
        -- nothing is appended, so the buffer cannot end in a space
        obtain ⟨cap, w, w', text, hw, hw', hrun⟩ := h.run_empty
        have hwrites : FixedBuffer.Writes Exn.bufferOverflow
            ((Argument.store ⟨.logLevelType l, v, hs⟩).insert mem :
              EStateM Exn (FixedBuffer Char cap) Unit) [] :=
          Argument.writes_store mem fun n hn => nomatch hn
        rw [hwrites.fits w (by simp [hw])] at hrun
        have hdata := congrArg FixedBuffer.data (EStateM.Result.ok.inj hrun).2
        rw [hw', FixedBuffer.extend_data, hw] at hdata
        simp at hdata
    | logLevel =>
        obtain ⟨text, htext, -⟩ := h
        exact logLevelSignature_isSome.mp (Option.isSome_iff_exists.mpr ⟨text, htext⟩)
    | _ => trivial
  · intro hp
    obtain ⟨text, htext⟩ := exists_textOf mem hnull hend hp
    refine ⟨text, htext, ?_⟩
    intro cap w room
    have harr : ∀ n, v.ty ≠ .charArray n := by
      intro n hn
      obtain ⟨t, v, hs⟩ := v
      cases hn
      exact hp.elim
    have hwrites : FixedBuffer.Writes Exn.bufferOverflow
        ((Argument.store v).insert mem : EStateM Exn (FixedBuffer Char cap) Unit)
        (text ++ [' ']) := by
      rw [← heldText_of_textOf htext hp]
      exact Argument.writes_store mem harr
    exact hwrites.fits w room

/-! ## Every position of every message -/

theorem ArgumentArray.slots_ofValues {vs : List Value} (h : vs.length ≤ T.paramSize) {i : Nat}
    {v : Value} (hv : vs[i]? = some v) :
    (ArgumentArray.ofValues vs h).slots[i]? = some (.store v) := by
  obtain ⟨hi, rfl⟩ := List.getElem?_eq_some_iff.mp hv
  show (vs.map Argument.store ++ _)[i]? = _
  rw [List.getElem?_append_left (by simpa using hi)]
  simp [hi]

namespace CLogger

/-- In the array of any call that reaches the queue, slot `i` prints element
`i` exactly when that element is printable. -/
theorem insertsText_slot_iff (alloc : Nat → Bool) (threshold : UInt32) (m : Message)
    (p : ArgumentArray T) (hp : prepare alloc threshold m = .full p) (i : Nat) (v : Value)
    (hv : m.elements[i]? = some v) (hnull : v.ty ≠ .nullptrT) (hend : v.ty ≠ .arrayEndMarker)
    (mem : Mem) :
    (∃ a, p.slots[i]? = some a ∧ InsertsText mem v a) ↔ Printable v.ty v.val := by
  obtain ⟨-, -, hfit, rfl⟩ := prepare_eq_full.mp hp
  rw [← insertsText_iff mem hnull hend, ArgumentArray.slots_ofValues hfit hv]
  simp

/-- A call whose one argument is a `char[8]` that is not `const`. -/
def buffered : Message where
  time := none
  threadId := .ofInt .int32 1
  level := .info
  position := 0
  arg0 := ⟨.charArray 8, 1, rfl⟩
  args := []

theorem prepare_of_fits (m : Message) {threshold : UInt32} (hl : threshold ≤ m.level.underlying)
    (h : m.elements.length ≤ T.paramSize) :
    prepare (fun _ => true) threshold m = .full (ArgumentArray.ofValues m.elements h) :=
  prepare_eq_full.mpr ⟨fun _ => hl, fun _ _ => rfl, h, rfl⟩

/-- Its thread id is printed. -/
theorem insertsText_slot_threadId :
    ∃ a, (ArgumentArray.ofValues (T := loggerTraits) buffered.elements (by decide)).slots[0]? =
        some a ∧ InsertsText .blank (.ofInt .int32 1) a :=
  (insertsText_slot_iff (fun _ => true) 0 buffered _ (prepare_of_fits buffered (by decide) _) 0
    (.ofInt .int32 1) rfl (by decide) (by decide) .blank).mpr trivial

/-- Its argument is not. -/
theorem not_insertsText_everywhere :
    ¬ ∀ (T : LoggerTraits) (alloc : Nat → Bool) (threshold : UInt32) (m : Message)
      (p : ArgumentArray T), prepare alloc threshold m = .full p →
        ∀ (i : Nat) (v : Value), m.elements[i]? = some v → v.ty ≠ .nullptrT →
          v.ty ≠ .arrayEndMarker →
            ∀ mem : Mem, ∃ a, p.slots[i]? = some a ∧ InsertsText mem v a := by
  intro h
  obtain ⟨a, ha, hins⟩ := h loggerTraits (fun _ => true) 0 buffered _
    (prepare_of_fits buffered (by decide) (by decide)) 3 buffered.arg0 rfl
    (by decide) (by decide) .blank
  rw [ArgumentArray.slots_ofValues _ (v := buffered.arg0) rfl] at ha
  cases ha
  exact (insertsText_iff .blank (by decide) (by decide)).mp hins

end CLogger

end Rtlog
