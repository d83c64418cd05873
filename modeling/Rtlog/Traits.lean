/-
# `Rtlog.Traits` — log levels and the logger's compile-time parameters

`Levels.hpp` and `Traits.hpp`.  `LogLevel` is an enumeration with a fixed
underlying type, so every `unsigned int` is a value of it, not only the three
enumerators; code that switches over a `LogLevel` has to say what it does with
the others.
-/
import Rtlog.Base.Text

namespace Rtlog

/-! ## Levels -/

/-- `enum LogLevel : unsigned int`. -/
structure LogLevel where
  underlying : UInt32
  deriving DecidableEq, Repr

namespace LogLevel

def info : LogLevel := ⟨0⟩
def warn : LogLevel := ⟨1⟩
def crit : LogLevel := ⟨2⟩

/-- The value is one of the three enumerators. -/
def Named (l : LogLevel) : Prop := l = info ∨ l = warn ∨ l = crit

instance (l : LogLevel) : Decidable l.Named := inferInstanceAs (Decidable (_ ∨ _ ∨ _))

end LogLevel

/-- `LogLevelSignature<L>::signature`: specialised for the enumerators only. -/
def logLevelSignature (l : LogLevel) : Option (List Char) :=
  if l = .info then some ['I', 'N', 'F', 'O']
  else if l = .warn then some ['W', 'A', 'R', 'N']
  else if l = .crit then some ['C', 'R', 'I', 'T']
  else none

theorem logLevelSignature_isSome {l : LogLevel} : (logLevelSignature l).isSome ↔ l.Named := by
  unfold logLevelSignature LogLevel.Named
  split
  · next h => simp [h]
  · split
    · next h => simp [h]
    · split <;> simp_all

/-- A signature is made of capital letters. -/
theorem isUpper_of_mem_logLevelSignature {l : LogLevel} {sig : List Char}
    (h : logLevelSignature l = some sig) {c : Char} (hc : c ∈ sig) : c.isUpper = true := by
  have hall : sig.all Char.isUpper = true := by
    unfold logLevelSignature at h
    split at h
    · cases h; rfl
    · split at h
      · cases h; rfl
      · split at h
        · cases h; rfl
        · cases h
  exact List.all_eq_true.mp hall c hc

/-! ## Traits -/

/-- `struct LoggerTraits`.  The two sizes are `std::size_t` constants; a buffer
of size zero is not an array type. -/
structure LoggerTraits where
  /-- Number of slots of an argument array. -/
  paramSize : Nat
  /-- Size of the formatting buffer. -/
  bufferSize : Nat
  defaultLevel : LogLevel
  paramSize_lt : paramSize < 2 ^ 64
  bufferSize_pos : 0 < bufferSize

/-- `rtlog::LoggerTraits`, the traits of the default logger. -/
def loggerTraits : LoggerTraits where
  paramSize := 16
  bufferSize := 1024
  defaultLevel := .info
  paramSize_lt := by decide
  bufferSize_pos := by decide

end Rtlog
