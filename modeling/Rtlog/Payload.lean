/-
# `Rtlog.Payload` — the tag of an argument follows its payload

The tag of an `Argument` and the `boost::any` it derives from are two objects,
and every operation of the class updates them in separate steps.  What all
operations keep is not that the tag is that of the payload, which is false as
soon as an object has been moved from or cleared, but `Argument.Matches`: *if*
there is a payload, the tag is its.

The operations act on a collection of objects, so that an operation may be given
the same object twice.  Each is written in the steps it makes, `setAny` and
`setType`, and `Objects.step_cases` says what they come to:

    construct, assign              i ↦ a stored value
    copy                           i ↦ what j is
    move                           i ↦ what j is, j ↦ j without a payload
    swap                           i ↦ what j is, j ↦ what i is
    clear                          i ↦ i without a payload

An assignment whose allocation fails is none of these.  It throws between its
two steps, with the new tag set and the old payload in place
(`assign_false_iff`).
-/
import Rtlog.Base.Machine
import Rtlog.Rendering

namespace Rtlog

/-! ## Objects -/

/-- The objects that exist, by address. -/
abbrev Objects := Nat → Option Argument

/-- `Argument(ValueType&& v)`: the base from `v`, then the tag. -/
def Argument.construct (v : Value) : Argument where
  any := some ⟨v.ty.decay, v.ty.decayVal v.val⟩
  type := v.argType

/-- The public operations, on the objects `i` and `j`.  A value that is stored is
no array of non-`const` characters. -/
inductive Operation where
  | default (i : Nat)
  | construct (i : Nat) (v : Value) (hv : ∀ n, v.ty ≠ .charArray n)
  | assign (i : Nat) (v : Value) (hv : ∀ n, v.ty ≠ .charArray n)
  | copyConstruct (i j : Nat)
  | copyAssign (i j : Nat)
  | moveConstruct (i j : Nat)
  | moveAssign (i j : Nat)
  | swap (i j : Nat)
  | clear (i : Nat)

namespace Objects

/-- No object. -/
def empty : Objects := fun _ => none

/-- The object at `i` with another payload. -/
def setAny (o : Objects) (i : Nat) (any : Any) : Objects :=
  Function.update o i ((o i).map fun arg => { arg with any := any })

/-- The object at `i` with another tag. -/
def setType (o : Objects) (i : Nat) (type : EArgType) : Objects :=
  Function.update o i ((o i).map fun arg => { arg with type := type })

/-- A new object at `i`, where there is none. -/
def create (o : Objects) (i : Nat) (arg : Argument) : Option Objects :=
  match o i with
  | none => some (Function.update o i (some arg))
  | some _ => none

/-- `boost::any`'s `swap`, on the bases of two objects. -/
def swapAny (o : Objects) (i j : Nat) (a b : Argument) : Objects :=
  (o.setAny i b.any).setAny j a.any

/-- An operation on objects that exist, or on a new one. -/
def step (o : Objects) : Operation → Option Objects
  | .default i => o.create i .default
  | .construct i v _ => o.create i (.construct v)
  | .assign i v _ =>
      match o i with
      | some arg =>
          match arg.assign true v with
          | .ok _ arg' => some (Function.update o i (some arg'))
          | .error _ _ => none
      | none => none
  | .copyConstruct i j =>
      match o j with
      | some b => o.create i ⟨b.any, b.type⟩
      | none => none
  | .copyAssign i j =>
      match o i, o j with
      | some _, some b => some ((o.setAny i b.any).setType i b.type)
      | _, _ => none
  | .moveConstruct i j =>
      match o j with
      | some b => (o.create i ⟨b.any, b.type⟩).map fun o' => o'.setAny j none
      | none => none
  | .moveAssign i j =>
      match o i, o j with
      | some a, some b => some (((o.swapAny i j a b).setAny j none).setType i b.type)
      | _, _ => none
  | .swap i j =>
      match o i, o j with
      | some a, some b => some (((o.setType i b.type).setType j a.type).swapAny i j a b)
      | _, _ => none
  | .clear i =>
      match o i with
      | some _ => some (o.setAny i none)
      | none => none

end Objects

/-- Programs that use the class. -/
def objects : Machine Objects Operation := ⟨Objects.step⟩

/-! ## What an operation comes to -/

namespace Objects

variable {o : Objects} {i j : Nat} {a b : Argument}

theorem create_eq_some_iff {arg : Argument} {o' : Objects} :
    o.create i arg = some o' ↔ o i = none ∧ o' = Function.update o i (some arg) := by
  unfold create
  split
  · next h => simp [h, eq_comm]
  · next h => simp [h]

theorem step_copyAssign (hi : o i = some a) (hj : o j = some b) :
    o.step (.copyAssign i j) = some (Function.update o i (some b)) := by
  simp only [step, hi, hj, setAny, setType, Function.update_self, Option.map_some,
    Function.update_idem]

theorem step_moveConstruct (hi : o i = none) (hj : o j = some b) :
    o.step (.moveConstruct i j) =
      some (Function.update (Function.update o i (some b)) j (some { b with any := none })) := by
  have hne : j ≠ i := by
    rintro rfl
    rw [hi] at hj
    cases hj
  simp only [step, hj, create, hi, Option.map_some, setAny, Function.update_of_ne hne]

theorem step_moveAssign (hi : o i = some a) (hj : o j = some b) :
    o.step (.moveAssign i j) =
      some (Function.update (Function.update o i (some b)) j (some { b with any := none })) := by
  rcases eq_or_ne j i with rfl | hne
  · rw [hi] at hj
    cases hj
    simp only [step, hi, swapAny, setAny, setType, Function.update_self, Option.map_some,
      Function.update_idem]
  · simp only [step, hi, hj, swapAny, setAny, setType, Function.update_self, Option.map_some,
      Function.update_idem, Function.update_of_ne hne, Function.update_of_ne hne.symm]
    rw [Function.update_comm hne, Function.update_idem]

theorem step_swap (hi : o i = some a) (hj : o j = some b) :
    o.step (.swap i j) = some (Function.update (Function.update o i (some b)) j (some a)) := by
  rcases eq_or_ne j i with rfl | hne
  · rw [hi] at hj
    cases hj
    simp only [step, hi, swapAny, setAny, setType, Function.update_self, Option.map_some,
      Function.update_idem]
  · simp only [step, hi, hj, swapAny, setAny, setType, Function.update_self, Option.map_some,
      Function.update_of_ne hne, Function.update_of_ne hne.symm]
    rw [Function.update_comm hne, Function.update_idem, Function.update_idem]

/-- What an operation can put at an address. -/
inductive Puts (o : Objects) : Argument → Prop
  | default : Puts o .default
  | store {v : Value} (hv : ∀ n, v.ty ≠ .charArray n) : Puts o (.store v)
  | same {i : Nat} {a : Argument} (h : o i = some a) : Puts o a
  | cleared {i : Nat} {a : Argument} (h : o i = some a) : Puts o { a with any := none }

/-- An operation puts something at one address or at two. -/
theorem step_cases {o' : Objects} {op : Operation} (h : o.step op = some o') :
    (∃ i a, Puts o a ∧ o' = Function.update o i (some a)) ∨
    ∃ i a j b, Puts o a ∧ Puts o b ∧
      o' = Function.update (Function.update o i (some a)) j (some b) := by
  cases op with
  | default i =>
      obtain ⟨-, rfl⟩ := create_eq_some_iff.mp h
      exact .inl ⟨i, _, .default, rfl⟩
  | construct i v hv =>
      obtain ⟨-, rfl⟩ := create_eq_some_iff.mp h
      exact .inl ⟨i, _, .store hv, rfl⟩
  | assign i v hv =>
      simp only [step] at h
      split at h
      · next arg _ =>
          rw [Argument.assign_true] at h
          cases h
          exact .inl ⟨i, _, .store hv, rfl⟩
      · cases h
  | copyConstruct i j =>
      simp only [step] at h
      split at h
      · next b hj =>
          obtain ⟨-, rfl⟩ := create_eq_some_iff.mp h
          exact .inl ⟨i, _, .same hj, rfl⟩
      · cases h
  | copyAssign i j =>
      cases hi : o i with
      | none => simp [step, hi] at h
      | some a =>
          cases hj : o j with
          | none => simp [step, hi, hj] at h
          | some b =>
              rw [step_copyAssign hi hj] at h
              cases h
              exact .inl ⟨i, b, .same hj, rfl⟩
  | moveConstruct i j =>
      cases hj : o j with
      | none => simp [step, hj] at h
      | some b =>
          cases hi : o i with
          | some a => simp [step, hj, create, hi] at h
          | none =>
              rw [step_moveConstruct hi hj] at h
              cases h
              exact .inr ⟨i, b, j, _, .same hj, .cleared hj, rfl⟩
  | moveAssign i j =>
      cases hi : o i with
      | none => simp [step, hi] at h
      | some a =>
          cases hj : o j with
          | none => simp [step, hi, hj] at h
          | some b =>
              rw [step_moveAssign hi hj] at h
              cases h
              exact .inr ⟨i, b, j, _, .same hj, .cleared hj, rfl⟩
  | swap i j =>
      cases hi : o i with
      | none => simp [step, hi] at h
      | some a =>
          cases hj : o j with
          | none => simp [step, hi, hj] at h
          | some b =>
              rw [step_swap hi hj] at h
              cases h
              exact .inr ⟨i, b, j, a, .same hj, .same hi, rfl⟩
  | clear i =>
      simp only [step] at h
      split at h
      · next a hi =>
          cases h
          refine .inl ⟨i, _, .cleared hi, ?_⟩
          rw [setAny, hi]
          rfl
      · cases h

/-! ## What every operation keeps -/

/-- Every object's tag is that of its payload, if it has one. -/
def Tagged (o : Objects) : Prop := ∀ i a, o i = some a → a.Matches

theorem tagged_empty : Tagged empty := by
  intro i a h
  cases h

theorem Tagged.puts (ho : Tagged o) (ha : Puts o a) : a.Matches := by
  cases ha with
  | default => exact Argument.matches_default
  | store hv => exact Argument.store_matches hv
  | same h => exact ho _ _ h
  | cleared h =>
      intro p hp
      cases hp

theorem Tagged.update (ho : Tagged o) (ha : a.Matches) (i : Nat) :
    Tagged (Function.update o i (some a)) := by
  intro k c hk
  rcases eq_or_ne k i with rfl | hne
  · rw [Function.update_self] at hk
    cases hk
    exact ha
  · rw [Function.update_of_ne hne] at hk
    exact ho k c hk

theorem Tagged.step {o' : Objects} {op : Operation} (ho : Tagged o) (h : o.step op = some o') :
    Tagged o' := by
  obtain ⟨i, a, ha, rfl⟩ | ⟨i, a, j, b, ha, hb, rfl⟩ := step_cases h
  · exact ho.update (ho.puts ha) i
  · exact (ho.update (ho.puts ha) i).update (ho.puts hb) j

theorem Tagged.of_run {ops : List Operation} (h : objects.run empty ops = some o) : Tagged o :=
  Machine.run_invariant (fun _ _ _ ho hs => ho.step hs) tagged_empty h

/-- A move or a swap between distinct objects carries tag and payload over. -/
theorem carried (hne : i ≠ j) (hj : o j = some b) :
    (o i = none → ∃ o', o.step (.moveConstruct i j) = some o' ∧ o' i = some b ∧
      o' j = some { b with any := none }) ∧
    ∀ a, o i = some a →
      (∃ o', o.step (.moveAssign i j) = some o' ∧ o' i = some b ∧
        o' j = some { b with any := none }) ∧
      ∃ o', o.step (.swap i j) = some o' ∧ o' i = some b ∧ o' j = some a := by
  have hput : ∀ c, Function.update (Function.update o i (some b)) j (some c) i = some b := by
    intro c
    rw [Function.update_of_ne hne, Function.update_self]
  refine ⟨fun hi => ⟨_, step_moveConstruct hi hj, hput _, Function.update_self _ _ _⟩, ?_⟩
  intro a hi
  exact ⟨⟨_, step_moveAssign hi hj, hput _, Function.update_self _ _ _⟩,
    ⟨_, step_swap hi hj, hput _, Function.update_self _ _ _⟩⟩

end Objects

/-- An argument with a payload of its tag never throws on a cast, and in a
writer with room it is inserted. -/
theorem Argument.Matches.insert {arg : Argument} (hm : arg.Matches) (hne : arg.empty = false)
    (mem : Mem) {cap : Nat} (w : FixedBuffer Char cap) :
    (∀ w', arg.insert mem w ≠ .error .badAnyCast w') ∧
    (w.data.length + (arg.rendered mem).length ≤ cap → ∃ w', arg.insert mem w = .ok () w') := by
  have hwrites : FixedBuffer.Writes Exn.bufferOverflow
      (arg.insert mem : EStateM Exn (FixedBuffer Char cap) Unit) (arg.rendered mem) :=
    writes_insert hm hne
  constructor
  · intro w' h
    rcases Nat.lt_or_ge cap (w.data.length + (arg.rendered mem).length) with hfull | hfits
    · obtain ⟨w₁, hw₁⟩ := hwrites.full w hfull
      rw [hw₁] at h
      cases h
    · rw [hwrites.fits w hfits] at h
      cases h
  · intro hfits
    exact ⟨_, hwrites.fits w hfits⟩

/-- In every program that uses the class, as long as nothing fails to allocate:
a payload has the type its tag stands for, a move or a swap between distinct
objects carries both, and no object that is not empty makes a cast throw. -/
theorem tag_follows_payload {ops : List Operation} {o : Objects}
    (hrun : objects.run .empty ops = some o) :
    (∀ i a p, o i = some a → a.any = some p → argType p.1 = some a.type) ∧
    (∀ i j b, i ≠ j → o j = some b →
      (o i = none → ∃ o', o.step (.moveConstruct i j) = some o' ∧ o' i = some b ∧
        o' j = some { b with any := none }) ∧
      ∀ a, o i = some a →
        (∃ o', o.step (.moveAssign i j) = some o' ∧ o' i = some b ∧
          o' j = some { b with any := none }) ∧
        ∃ o', o.step (.swap i j) = some o' ∧ o' i = some b ∧ o' j = some a) ∧
    ∀ i a, o i = some a → a.empty = false → ∀ (mem : Mem) (cap : Nat) (w : FixedBuffer Char cap),
      (∀ w', a.insert mem w ≠ .error .badAnyCast w') ∧
      (w.data.length + (a.rendered mem).length ≤ cap → ∃ w', a.insert mem w = .ok () w') := by
  have ho := Objects.Tagged.of_run hrun
  refine ⟨?_, fun i j b hne hj => Objects.carried hne hj, ?_⟩
  · intro i a p hi hp
    exact (ho i a hi p hp).2
  · intro i a hi hne mem cap w
    exact (ho i a hi).insert hne mem w

/-- An integer is moved away from its object, and a C string swapped in. -/
def handedOn : List Operation :=
  [.construct 0 (.ofInt .int32 42) (by intro n h; cases h), .default 1, .moveAssign 1 0,
    .construct 2 (.ofStr 7) (by intro n h; cases h), .swap 0 2]

theorem tag_follows_payload_handedOn : ∃ o, objects.run .empty handedOn = some o ∧
    o 0 = some (.store (.ofStr 7)) ∧ o 1 = some (.store (.ofInt .int32 42)) ∧
    argType .constCharPtr = some (Argument.store (.ofStr 7)).type := by
  obtain ⟨o, hrun, h₀, h₁⟩ : ∃ o, objects.run .empty handedOn = some o ∧
      o 0 = some (.store (.ofStr 7)) ∧ o 1 = some (.store (.ofInt .int32 42)) :=
    ⟨_, rfl, rfl, rfl⟩
  exact ⟨o, hrun, h₀, h₁, (tag_follows_payload hrun).1 0 _ _ h₀ rfl⟩

/-! ## An assignment that throws -/

namespace Argument

/-- What a sequence of assignments leaves of a new object.  Each comes with
whether its allocation succeeds; an exception is caught by the caller. -/
def assigned (history : List (Bool × Value)) : Argument :=
  history.foldl (fun arg a =>
    match arg.assign a.1 a.2 with
    | .ok _ arg' => arg'
    | .error _ arg' => arg') .default

/-- The new tag, the old payload. -/
theorem assign_false (v : Value) (arg : Argument) :
    arg.assign false v = .error .badAlloc { arg with type := v.argType } := rfl

/-- A failed assignment leaves the object as it was, and inserting it prints what
it printed, exactly if the value it was to be assigned has the tag that the
object already has. -/
theorem assign_false_iff (history : List (Bool × Value)) (v : Value) :
    (∃ arg, (assigned history).assign false v = .error .badAlloc arg ∧
      arg.type = (assigned history).type ∧ arg.any = (assigned history).any ∧
      ∀ (mem : Mem) (cap : Nat) (w : FixedBuffer Char cap),
        arg.insert mem w = (assigned history).insert mem w) ↔
    v.argType = (assigned history).type := by
  constructor
  · rintro ⟨arg, h, htype, -⟩
    rw [assign_false] at h
    cases h
    exact htype
  · intro htag
    refine ⟨assigned history, ?_, rfl, rfl, fun _ _ _ => rfl⟩
    rw [assign_false, htag]

theorem not_assign_false :
    ¬ ∀ (history : List (Bool × Value)) (v : Value) (arg : Argument),
      (assigned history).assign false v = .error .badAlloc arg →
        arg.type = (assigned history).type ∧ arg.any = (assigned history).any ∧
        ∀ (mem : Mem) (cap : Nat) (w : FixedBuffer Char cap),
          arg.insert mem w = (assigned history).insert mem w := by
  intro h
  obtain ⟨htype, -⟩ := h [(true, .ofInt .int32 42)] (.ofStr 7) _ (assign_false _ _)
  cases htype

end Argument

end Rtlog
