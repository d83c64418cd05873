/-
# `Rtlog.Argument` — one piece of a log message

`Argument.hpp`.  An `Argument` is a `boost::any` with a tag beside it: the tag
is taken from the static type of what is stored, the payload from its decayed
type, and on the consumer thread `operator<<` switches over the tag and casts
the payload to the type the tag stands for.  Four tables have to agree for that
to work, and each is a definition of its own here:

    `argType`    C++ type ↦ tag                      (`ArgType`, partial)
    `decay`      C++ type ↦ type `boost::any` holds
    `typeArg`    tag ↦ C++ type                      (`TypeArg`, partial)
    `insertCase` tag ↦ what is appended              (`operator<<`)

A table without an entry for a type is a program that does not compile, so a
value that reaches `operator=` carries the proof that `argType` has an entry
for it (`Value.supported`).

A C string argument is a pointer: neither the tag nor the payload holds its
characters, and `insert` takes the memory it reads them from.  A `char*` always
points at a C string here, so a null or dangling pointer is not in the model.
-/
import Rtlog.Base.FixedBuffer
import Rtlog.Traits

namespace Rtlog

abbrev Ptr := Nat

/-- The C string each pointer points at. -/
abbrev Mem := Ptr → CString

/-- Every pointer at the empty string. -/
def Mem.blank : Mem := fun _ => ⟨[], List.not_mem_nil⟩

/-! ## Types and values -/

inductive IntType where
  | int8 | uint8 | int16 | uint16 | int32 | uint32 | int64 | uint64
  deriving DecidableEq, Repr

namespace IntType

def width : IntType → Nat
  | .int8 | .uint8 => 8
  | .int16 | .uint16 => 16
  | .int32 | .uint32 => 32
  | .int64 | .uint64 => 64

def signed : IntType → Bool
  | .int8 | .int16 | .int32 | .int64 => true
  | .uint8 | .uint16 | .uint32 | .uint64 => false

/-- The integer a bit pattern of the type stands for. -/
def toInt (t : IntType) (v : BitVec t.width) : Int := if t.signed then v.toInt else v.toNat

end IntType

/-- The C++ types a call can pass, references removed.  `charPtr` has no entry
in `argType`; it is here because `boost::any` can hold one. -/
inductive CppType where
  | nullptrT
  | int (t : IntType)
  | char
  | constCharPtr
  | charPtr
  | constCharArray (n : Nat)
  | charArray (n : Nat)
  | logLevel
  | logLevelType (l : LogLevel)
  | timePoint
  | arrayEndMarker
  deriving DecidableEq, Repr

namespace CppType

/-- The values of a type.  An array is where its first character is, a time
point of the high-resolution clock its count of nanoseconds. -/
abbrev Val : CppType → Type
  | .nullptrT | .logLevelType _ | .arrayEndMarker => Unit
  | .int t => BitVec t.width
  | .char => Char
  | .constCharPtr | .charPtr | .constCharArray _ | .charArray _ => Ptr
  | .logLevel => LogLevel
  | .timePoint => BitVec 64

/-- `std::remove_cv`: the `const` of an array of `const char` is the array's. -/
def removeCv : CppType → CppType
  | .constCharArray n => .charArray n
  | t => t

/-- The type `boost::any` holds when it is given a value of type `t`. -/
def decay : CppType → CppType
  | .constCharArray _ => .constCharPtr
  | .charArray _ => .charPtr
  | t => t

/-- The value it holds: an array decays to the address of its first character. -/
def decayVal : (t : CppType) → t.Val → t.decay.Val
  | .nullptrT, v | .int _, v | .char, v | .constCharPtr, v | .charPtr, v
  | .constCharArray _, v | .charArray _, v | .logLevel, v | .logLevelType _, v
  | .timePoint, v | .arrayEndMarker, v => v

end CppType

/-! ## Tags -/

/-- `enum class E_ARG_TYPE`. -/
inductive EArgType where
  | nullType
  | int64Type | uint64Type
  | int32Type | uint32Type
  | int16Type | uint16Type
  | int8Type | uint8Type
  | cStrType | charType
  | logInfoType | logWarnType | logCritType | logLevelType
  | timepointType
  | endMarkerType
  | unknownType
  deriving DecidableEq, Repr

/-- `ArgType<T>::ARG_TYPE`; `none` where the trait is not specialised. -/
def argType : CppType → Option EArgType
  | .nullptrT => some .nullType
  | .int .int8 => some .int8Type
  | .int .uint8 => some .uint8Type
  | .int .int16 => some .int16Type
  | .int .uint16 => some .uint16Type
  | .int .int32 => some .int32Type
  | .int .uint32 => some .uint32Type
  | .int .int64 => some .int64Type
  | .int .uint64 => some .uint64Type
  | .constCharArray _ => some .cStrType
  | .charArray _ => some .cStrType
  | .constCharPtr => some .cStrType
  | .charPtr => none
  | .char => some .charType
  | .logLevel => some .logLevelType
  | .logLevelType l =>
      if l = .info then some .logInfoType
      else if l = .warn then some .logWarnType
      else if l = .crit then some .logCritType
      else none
  | .timePoint => some .timepointType
  | .arrayEndMarker => some .endMarkerType

/-- `TypeArg<T>::TYPE`; `none` where the trait is not specialised. -/
def typeArg : EArgType → Option CppType
  | .nullType => some .nullptrT
  | .int64Type => some (.int .int64)
  | .uint64Type => some (.int .uint64)
  | .int32Type => some (.int .int32)
  | .uint32Type => some (.int .uint32)
  | .int16Type => some (.int .int16)
  | .uint16Type => some (.int .uint16)
  | .int8Type => some (.int .int8)
  | .uint8Type => some (.int .uint8)
  | .cStrType => some .constCharPtr
  | .charType => some .char
  | .logLevelType => some .logLevel
  | .timepointType => some .timePoint
  | .endMarkerType => some .arrayEndMarker
  | .logInfoType | .logWarnType | .logCritType | .unknownType => none

/-- A value whose type `operator=` compiles for. -/
structure Value where
  ty : CppType
  val : ty.Val
  supported : (argType ty.removeCv).isSome

/-- An integer of any supported width. -/
def Value.ofInt (t : IntType) (v : BitVec t.width) : Value := ⟨.int t, v, by cases t <;> rfl⟩

/-- A C string. -/
def Value.ofStr (p : Ptr) : Value := ⟨.constCharPtr, p, rfl⟩

/-- A character. -/
def Value.ofChar (c : Char) : Value := ⟨.char, c, rfl⟩

/-- The tag stored with the value: `ArgType` of its type less reference and `const`. -/
def Value.argType (v : Value) : EArgType := (Rtlog.argType v.ty.removeCv).get v.supported

theorem Value.argType_eq_some (v : Value) : Rtlog.argType v.ty.removeCv = some v.argType :=
  (Option.some_get v.supported).symm

/-! ## `Argument` -/

/-- What the code on either thread can throw. -/
inductive Exn where
  | badAnyCast
  | bufferOverflow
  | badAlloc
  deriving DecidableEq, Repr

/-- `boost::any`: nothing, or a value together with its type. -/
abbrev Any := Option (Σ t : CppType, t.Val)

/-- `boost::any_cast<T>`. -/
def anyCast {σ : Type} (T : CppType) : Any → EStateM Exn σ T.Val
  | some ⟨t, v⟩ => if h : t = T then pure (h ▸ v) else throw .badAnyCast
  | none => throw .badAnyCast

/-- `class Argument : public boost::any`. -/
structure Argument where
  any : Any
  type : EArgType

namespace Argument

/-- `Argument()`. -/
def default : Argument := ⟨none, .nullType⟩

/-- `boost::any::empty()`. -/
def empty (arg : Argument) : Bool := arg.any.isNone

/-- `Argument::operator=(ValueType&&)`.  The tag is set first; `alloc` says
whether the allocation behind `boost::any(v)` succeeds. -/
def assign (alloc : Bool) (v : Value) : EStateM Exn Argument Unit := do
  modify fun arg => { arg with type := v.argType }
  if alloc then
    modify fun arg => { arg with any := some ⟨v.ty.decay, v.ty.decayVal v.val⟩ }
  else
    throw .badAlloc

/-- What a successful assignment leaves, whatever was there before. -/
def store (v : Value) : Argument := ⟨some ⟨v.ty.decay, v.ty.decayVal v.val⟩, v.argType⟩

/-- `Argument::is_type<T>`. -/
def isType (T : CppType) (arg : Argument) : Bool := some arg.type = argType T

theorem assign_true (v : Value) (arg : Argument) : assign true v arg = .ok () (store v) := rfl

end Argument

/-! ## `operator<<` -/

/-- How a case of the switch ends: `break`, or `return os`. -/
inductive Flow where
  | brk
  | ret

section Insert

variable {cap : Nat}

/-- Insert characters into the array writer. -/
def put (s : List Char) : EStateM Exn (FixedBuffer Char cap) Unit :=
  FixedBuffer.append .bufferOverflow s

/-- `boost::any_cast<TypeArg<tag>::TYPE>(arg)`. -/
def castArg {σ : Type} (tag : EArgType) (T : CppType) (arg : Argument)
    (_ : typeArg tag = some T := by rfl) : EStateM Exn σ T.Val := anyCast T arg.any

/-- The case of an integer tag. -/
def insertInt (tag : EArgType) (t : IntType) (arg : Argument)
    (h : typeArg tag = some (.int t) := by rfl) : EStateM Exn (FixedBuffer Char cap) Flow := do
  put (decimal (t.toInt (← castArg tag (.int t) arg h)))
  return .brk

/-- A time point's count of microseconds: `duration_cast` truncates. -/
def microseconds (v : BitVec 64) : Int := v.toInt.tdiv 1000

/-- The switch. -/
def insertCase (mem : Mem) (arg : Argument) : EStateM Exn (FixedBuffer Char cap) Flow :=
  match arg.type with
  | .nullType => return .ret
  | .int64Type => insertInt .int64Type .int64 arg
  | .uint64Type => insertInt .uint64Type .uint64 arg
  | .int32Type => insertInt .int32Type .int32 arg
  | .uint32Type => insertInt .uint32Type .uint32 arg
  | .int16Type => insertInt .int16Type .int16 arg
  | .uint16Type => insertInt .uint16Type .uint16 arg
  | .int8Type => insertInt .int8Type .int8 arg
  | .uint8Type => insertInt .uint8Type .uint8 arg
  | .charType => do
      let c : Char ← castArg .charType .char arg
      put [c]
      return .brk
  | .cStrType => do
      let p : Ptr ← castArg .cStrType .constCharPtr arg
      put (mem p).chars
      return .brk
  | .logLevelType => do
      let l : LogLevel ← castArg .logLevelType .logLevel arg
      match logLevelSignature l with
      | some sig => put sig
      | none => pure ()
      return .brk
  | .timepointType => do
      put (decimal (microseconds (← castArg .timepointType .timePoint arg)))
      return .brk
  | .endMarkerType => do
      put ['\n']
      return .ret
  | .logInfoType | .logWarnType | .logCritType | .unknownType => return .ret

/-- `operator<<(fmt::BasicWriter&, Argument const&)`. -/
def Argument.insert (mem : Mem) (arg : Argument) : EStateM Exn (FixedBuffer Char cap) Unit := do
  match ← insertCase mem arg with
  | .brk => put [' ']
  | .ret => pure ()

end Insert

end Rtlog
