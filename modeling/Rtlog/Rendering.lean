/-
# `Rtlog.Rendering` — what one argument contributes to the text

Two readings of an argument that do not mention the writer, nor what the code
uses to write.

* `textOf`: what a value says.  It is defined on the C++ type the caller
  passed, and it is partial: a null pointer, an end marker and a level outside
  the enumeration say nothing.
* `heldText`: what `operator<<` appends for a payload, separator included.

The numerals, the names of the levels and the unit of time are said here once
more, and the code's are shown to be these (`decimal_toInt`,
`logLevelSignature_eq`, `decimal_microseconds`).

`writes_insert` connects the second to the code: for an argument whose tag
matches its payload, inserting appends exactly its `heldText`, whatever room
there is (`FixedBuffer.Writes`).  Whether the *first* agrees with it is a
question about the tables, answered type by type in `Rtlog.Agreement`.
-/
import Rtlog.Argument

namespace Rtlog

open FixedBuffer (Writes)

/-! ## Texts -/

/-- The numeral of an integer. -/
def intText : (t : IntType) → BitVec t.width → List Char
  | .int8, v | .int16, v | .int32, v | .int64, v => decimal (BitVec.toInt v)
  | .uint8, v | .uint16, v | .uint32, v | .uint64, v => decimal (BitVec.toNat v)

/-- The name of a level. -/
def levelText (l : LogLevel) : Option (List Char) :=
  if l = ⟨0⟩ then some ['I', 'N', 'F', 'O']
  else if l = ⟨1⟩ then some ['W', 'A', 'R', 'N']
  else if l = ⟨2⟩ then some ['C', 'R', 'I', 'T']
  else none

/-- A time point in microseconds; the clock counts nanoseconds. -/
def timeText (v : BitVec 64) : List Char := decimal (v.toInt.tdiv 1000)

theorem decimal_toInt (t : IntType) (v : BitVec t.width) : decimal (t.toInt v) = intText t v := by
  cases t <;> rfl

theorem logLevelSignature_eq (l : LogLevel) : logLevelSignature l = levelText l := rfl

theorem decimal_microseconds (v : BitVec 64) : decimal (microseconds v) = timeText v := rfl

/-- A numeral has no characters but `-` and digits. -/
theorem not_mem_intText {c : Char} (hc : c ≠ '-') (hd : c.isDigit = false) (t : IntType)
    (v : BitVec t.width) : c ∉ intText t v := by
  rw [← decimal_toInt]
  exact not_mem_decimal hc hd _

/-- The text of a value, by the type the caller passed it with. -/
def textOf (mem : Mem) : (t : CppType) → t.Val → Option (List Char)
  | .nullptrT, _ | .arrayEndMarker, _ => none
  | .int t, v => some (intText t v)
  | .char, c => some [c]
  | .constCharPtr, p | .charPtr, p | .constCharArray _, p | .charArray _, p =>
      some (mem p).chars
  | .logLevel, l => levelText l
  | .logLevelType l, _ => levelText l
  | .timePoint, v => some (timeText v)

/-- What inserting a payload appends. -/
def heldText (mem : Mem) : (t : CppType) → t.Val → List Char
  | .nullptrT, _ | .logLevelType _, _ => []
  | .arrayEndMarker, _ => ['\n']
  | .logLevel, l => (levelText l).getD [] ++ [' ']
  | .int t, v => intText t v ++ [' ']
  | .char, c => [c] ++ [' ']
  | .constCharPtr, p | .charPtr, p | .constCharArray _, p | .charArray _, p =>
      (mem p).chars ++ [' ']
  | .timePoint, v => timeText v ++ [' ']

namespace Argument

/-- What inserting the argument appends. -/
def rendered (mem : Mem) (arg : Argument) : List Char :=
  match arg.any with
  | none => []
  | some ⟨t, v⟩ => heldText mem t v

/-- The tag is the one `ArgType` gives the payload's type, which is a type
`boost::any` can hold. -/
def Matches (arg : Argument) : Prop :=
  ∀ p, arg.any = some p → p.1.decay = p.1 ∧ argType p.1 = some arg.type

theorem matches_default : default.Matches := fun _ h => by cases h

end Argument

/-! ## The writer's view -/

section Writer

variable {cap : Nat}

theorem anyCast_same {σ : Type} (T : CppType) (v : T.Val) :
    (anyCast T (some ⟨T, v⟩) : EStateM Exn σ T.Val) = pure v := by
  simp [anyCast]

theorem anyCast_of_ne {σ : Type} {T t : CppType} (v : t.Val) (h : t ≠ T) :
    (anyCast T (some ⟨t, v⟩) : EStateM Exn σ T.Val) = throw .badAnyCast := by
  simp [anyCast, h]

theorem writes_put (s : List Char) :
    Writes Exn.bufferOverflow (put s : EStateM Exn (FixedBuffer Char cap) Unit) s :=
  FixedBuffer.writes_append s

theorem put_nil : (put [] : EStateM Exn (FixedBuffer Char cap) Unit) = pure () :=
  FixedBuffer.append_nil

/-- A case that appends `s` and breaks. -/
theorem writes_of_brk {mem : Mem} {arg : Argument} {s : List Char}
    (h : (insertCase mem arg : EStateM Exn (FixedBuffer Char cap) Flow) =
      (do put s; return .brk)) :
    Writes Exn.bufferOverflow (arg.insert mem : EStateM Exn (FixedBuffer Char cap) Unit)
      (s ++ [' ']) := by
  have hrun : (arg.insert mem : EStateM Exn (FixedBuffer Char cap) Unit) =
      (do put s; put [' ']) := by
    unfold Argument.insert
    rw [h]
    simp
  rw [hrun]
  exact (writes_put s).seq (writes_put [' '])

/-- A case that returns at once. -/
theorem writes_of_ret {mem : Mem} {arg : Argument}
    (h : (insertCase mem arg : EStateM Exn (FixedBuffer Char cap) Flow) = pure .ret) :
    Writes Exn.bufferOverflow (arg.insert mem : EStateM Exn (FixedBuffer Char cap) Unit) [] := by
  have hrun : (arg.insert mem : EStateM Exn (FixedBuffer Char cap) Unit) = pure () := by
    unfold Argument.insert
    rw [h]
    simp
  rw [hrun]
  exact FixedBuffer.writes_pure

theorem insertInt_held (tag : EArgType) (t : IntType) (v : (CppType.int t).Val)
    (h : typeArg tag = some (.int t)) :
    (insertInt tag t ⟨some ⟨.int t, v⟩, tag⟩ h : EStateM Exn (FixedBuffer Char cap) Flow) =
      (do put (intText t v); return .brk) := by
  unfold insertInt castArg
  rw [anyCast_same]
  simp [decimal_toInt]

theorem insertCase_logLevel (mem : Mem) (l : LogLevel) :
    (insertCase mem ⟨some ⟨.logLevel, l⟩, .logLevelType⟩ :
      EStateM Exn (FixedBuffer Char cap) Flow) =
        (do put ((levelText l).getD []); return .brk) := by
  unfold insertCase
  simp only [castArg, anyCast_same, pure_bind, logLevelSignature_eq]
  cases levelText l with
  | some sig => rfl
  | none =>
      rw [Option.getD_none, put_nil]
      rfl

theorem writes_of_marker (mem : Mem) (u : Unit) :
    Writes Exn.bufferOverflow
      (Argument.insert mem ⟨some ⟨.arrayEndMarker, u⟩, .endMarkerType⟩ :
        EStateM Exn (FixedBuffer Char cap) Unit) ['\n'] := by
  have hrun : (Argument.insert mem ⟨some ⟨.arrayEndMarker, u⟩, .endMarkerType⟩ :
      EStateM Exn (FixedBuffer Char cap) Unit) = put ['\n'] := by
    unfold Argument.insert insertCase
    simp
  rw [hrun]
  exact writes_put _

/-- The three tag types are stored under tags that no case of the switch has. -/
theorem argType_logLevelType {l : LogLevel} {tag : EArgType}
    (h : argType (.logLevelType l) = some tag) :
    tag = .logInfoType ∨ tag = .logWarnType ∨ tag = .logCritType := by
  simp only [argType] at h
  split at h
  · exact .inl (Option.some.inj h).symm
  · split at h
    · exact .inr (.inl (Option.some.inj h).symm)
    · split at h
      · exact .inr (.inr (Option.some.inj h).symm)
      · cases h

/-- Inserting an argument whose tag matches its payload appends its text. -/
theorem writes_insert {mem : Mem} {arg : Argument} (hm : arg.Matches) (hne : arg.empty = false) :
    Writes Exn.bufferOverflow (arg.insert mem : EStateM Exn (FixedBuffer Char cap) Unit)
      (arg.rendered mem) := by
  obtain ⟨any, tag⟩ := arg
  cases any with
  | none => simp [Argument.empty] at hne
  | some p =>
      obtain ⟨t, v⟩ := p
      obtain ⟨hdecay, htag⟩ := hm _ rfl
      -- the payload's type decides the tag, and with it the case of the switch
      cases t with
      | nullptrT => cases htag; exact writes_of_ret rfl
      | int t => cases t <;> cases htag <;> exact writes_of_brk (insertInt_held _ _ v rfl)
      | char => cases htag; exact writes_of_brk (s := [v]) rfl
      | constCharPtr => cases htag; exact writes_of_brk (s := (mem v).chars) rfl
      | charPtr => cases htag
      | constCharArray n => cases hdecay
      | charArray n => cases hdecay
      | logLevel => cases htag; exact writes_of_brk (insertCase_logLevel mem v)
      | logLevelType l =>
          obtain rfl | rfl | rfl := argType_logLevelType htag <;> exact writes_of_ret rfl
      | timePoint => cases htag; exact writes_of_brk (s := timeText v) rfl
      | arrayEndMarker => cases htag; exact writes_of_marker mem v

end Writer

/-! ## What a stored value renders to -/

namespace Argument

theorem rendered_store (mem : Mem) (v : Value) :
    (store v).rendered mem = heldText mem v.ty v.val := by
  obtain ⟨t, v, hs⟩ := v
  cases t <;> rfl

/-- The tag and the payload of a stored value agree, unless it was an array
that is not `const`: that one is held as a `char*`, which no tag stands for. -/
theorem store_matches {v : Value} (h : ∀ n, v.ty ≠ .charArray n) : (store v).Matches := by
  rintro p ⟨⟩
  have htag := v.argType_eq_some
  obtain ⟨t, v, hs⟩ := v
  cases t with
  | charArray n => exact absurd rfl (h n)
  | charPtr => cases htag
  | _ => exact ⟨rfl, htag⟩

variable {cap : Nat}

/-- A stored array that is not `const` cannot be inserted at all. -/
theorem insert_charArray (mem : Mem) {v : Value} {n : Nat} (h : v.ty = .charArray n)
    (w : FixedBuffer Char cap) : (store v).insert mem w = .error .badAnyCast w := by
  obtain ⟨t, v, hs⟩ := v
  cases h
  rfl

theorem writes_store (mem : Mem) {v : Value} (h : ∀ n, v.ty ≠ .charArray n) :
    FixedBuffer.Writes Exn.bufferOverflow
      ((store v).insert mem : EStateM Exn (FixedBuffer Char cap) Unit)
      (heldText mem v.ty v.val) := by
  rw [← rendered_store]
  exact writes_insert (store_matches h) rfl

end Argument

/-- The values that `operator<<` prints as what they say: every type but the
array that is not `const` and the three tag types, and of the levels the three
enumerators. -/
def Printable : (t : CppType) → t.Val → Prop
  | .charArray _, _ => False
  | .logLevelType _, _ => False
  | .logLevel, l => l.Named
  | _, _ => True

/-- What is held says what was passed, followed by one space. -/
theorem heldText_of_textOf {mem : Mem} {t : CppType} {v : t.Val} {text : List Char}
    (ht : textOf mem t v = some text) (hp : Printable t v) : heldText mem t v = text ++ [' '] := by
  cases t with
  | nullptrT | arrayEndMarker => cases ht
  | logLevelType l => exact hp.elim
  | logLevel => simp only [textOf] at ht; simp [heldText, ht]
  | _ => cases ht; rfl

end Rtlog
