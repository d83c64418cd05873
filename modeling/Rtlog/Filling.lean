/-
# `Rtlog.Filling` — what a call puts into its array

The five or six `_write` calls of `write` share one index, so together they are
one pass over the elements of the message (`prepare_eq`).  A pass ends in
exactly one way, decided by the number of elements and by the allocations:

    every store succeeds, the elements fit     the array is full
    a store inside the array fails             the exception leaves `write`
    the index reaches the end of the array     undefined

(`storeAll_cases`), and in the first case the array holds the elements from slot
0 on, with every slot behind them empty (`setAll_init`).  Together with the level
check this makes four ways for a call to go, `prepare_cases`.

The second half compares this with the `static_assert`s.  The one without a
time point is exact; the one with a time point admits one argument too many.
-/
import Rtlog.Logger

namespace Rtlog

variable {T : LoggerTraits}

namespace CLogger

/-! ## One pass -/

/-- Store a list of values one after the other. -/
def storeAll (alloc : Nat → Bool) : List Value → EStateM Fault (Filling T) Unit
  | [] => pure ()
  | v :: vs => do
      store alloc v
      storeAll alloc vs

theorem storeAll_append (alloc : Nat → Bool) (vs ws : List Value) :
    (storeAll alloc (vs ++ ws) : EStateM Fault (Filling T) Unit) =
      (do storeAll alloc vs; storeAll alloc ws) := by
  induction vs with
  | nil => simp [storeAll]
  | cons v vs ih => simp [storeAll, ih]

theorem _write_eq (alloc : Nat → Bool) : ∀ (v0 : Value) (args : List Value),
    (_write alloc v0 args : EStateM Fault (Filling T) Bool) =
      (do storeAll alloc (v0 :: args); return true)
  | v0, [] => by simp [_write, storeAll]
  | v0, v1 :: args => by
      rw [_write, _write_eq alloc v1 args]
      simp [storeAll]

theorem ofResult_return {α β : Type} (x : EStateM Fault (Filling T) α) (b : β)
    (s : Filling T) : Prepared.ofResult ((do let _ ← x; return b) s) = .ofResult (x s) := by
  simp only [bind, EStateM.bind]
  cases x s <;> rfl

/-- The `_write` calls of either overload are one pass over the elements. -/
theorem prepare_eq (alloc : Nat → Bool) (threshold : UInt32) (m : Message) :
    (prepare alloc threshold m : Prepared T) =
      if m.time = none ∧ m.level.underlying < threshold then .filtered
      else .ofResult (storeAll alloc m.elements ⟨ArgumentArray.init, 0⟩) := by
  obtain ⟨time, tid, level, pos, arg0, args⟩ := m
  cases time with
  | none =>
      simp only [prepare, prepareUntimed, true_and]
      split
      · rfl
      · simp only [_write_eq, bind_assoc, pure_bind]
        rw [← ofResult_return (storeAll alloc (Message.elements _)) true]
        congr 2
        simp [Message.elements, Message.contents, storeAll, storeAll_append]
  | some t =>
      simp only [prepare, prepareTimed, reduceCtorEq, false_and, if_false]
      simp only [_write_eq, bind_assoc, pure_bind]
      rw [← ofResult_return (storeAll alloc (Message.elements _)) true]
      congr 2
      simp [Message.elements, Message.contents, storeAll, storeAll_append]

/-! ## How a pass ends -/

theorem store_ok {alloc : Nat → Bool} {v : Value} {s : Filling T}
    (h : s.queuePos < T.paramSize) (ha : alloc s.queuePos = true) :
    store alloc v s = .ok () ⟨s.p.set s.queuePos (Argument.store v), s.queuePos + 1⟩ := by
  rw [store, dif_pos (by rwa [s.p.size_eq]), ha, Argument.assign_true]

theorem store_threw {alloc : Nat → Bool} {v : Value} {s : Filling T}
    (h : s.queuePos < T.paramSize) (ha : alloc s.queuePos = false) :
    ∃ s', store alloc v s = .error (.threw .badAlloc) s' := by
  rw [store, dif_pos (by rwa [s.p.size_eq]), ha]
  exact ⟨_, rfl⟩

theorem store_outOfBounds (alloc : Nat → Bool) (v : Value) {s : Filling T}
    (h : T.paramSize ≤ s.queuePos) :
    ∃ s', store alloc v s = .error .outOfBounds s' := by
  rw [store, dif_neg (by rw [s.p.size_eq]; omega)]
  exact ⟨_, rfl⟩

/-- `p` with `vs` stored from slot `i` on. -/
def setAll : ArgumentArray T → Nat → List Value → ArgumentArray T
  | p, _, [] => p
  | p, i, v :: vs => setAll (p.set i (Argument.store v)) (i + 1) vs

/-- The three ways a pass can end. -/
theorem storeAll_cases (alloc : Nat → Bool) : ∀ (vs : List Value) (s : Filling T),
    s.queuePos ≤ T.paramSize →
      (s.queuePos + vs.length ≤ T.paramSize ∧
        (∀ i, s.queuePos ≤ i → i < s.queuePos + vs.length → alloc i = true) ∧
        storeAll alloc vs s = .ok () ⟨setAll s.p s.queuePos vs, s.queuePos + vs.length⟩) ∨
      ((∃ i, s.queuePos ≤ i ∧ i < s.queuePos + vs.length ∧ alloc i = false) ∧
        ∃ s', storeAll alloc vs s = .error (.threw .badAlloc) s') ∨
      (T.paramSize < s.queuePos + vs.length ∧
        ∃ s', storeAll alloc vs s = .error .outOfBounds s') := by
  intro vs
  induction vs with
  | nil =>
      intro s hs
      refine .inl ⟨hs, ?_, rfl⟩
      intro i h₁ h₂
      exact absurd h₂ (Nat.not_lt.mpr h₁)
  | cons v vs ih =>
      intro s hs
      have hlen : s.queuePos + (v :: vs).length = s.queuePos + 1 + vs.length := by
        rw [List.length_cons]
        omega
      rw [hlen, storeAll]
      rcases Nat.eq_or_lt_of_le hs with heq | hpos
      · -- the index is at the end of the array
        obtain ⟨s', hs'⟩ := store_outOfBounds alloc v (Nat.le_of_eq heq.symm)
        exact .inr (.inr ⟨by omega, s', EStateM.bind_apply_of_error hs'⟩)
      · cases ha : alloc s.queuePos with
        | false =>
            obtain ⟨s', hs'⟩ := store_threw (v := v) hpos ha
            exact .inr (.inl ⟨⟨s.queuePos, Nat.le_refl _, by omega, ha⟩, s',
              EStateM.bind_apply_of_error hs'⟩)
        | true =>
            rw [EStateM.bind_apply_of_ok (store_ok hpos ha)]
            obtain ⟨hfit, hall, hrun⟩ | ⟨⟨i, h₁, h₂, hi⟩, hrun⟩ | hrun :=
              ih ⟨s.p.set s.queuePos (.store v), s.queuePos + 1⟩ hpos
            · refine .inl ⟨hfit, ?_, hrun⟩
              intro i h₁ h₂
              rcases Nat.eq_or_lt_of_le h₁ with rfl | h₁
              · exact ha
              · exact hall i h₁ h₂
            · exact .inr (.inl ⟨⟨i, Nat.le_of_succ_le h₁, h₂, hi⟩, hrun⟩)
            · exact .inr (.inr hrun)

/-! ## The array of a message -/

theorem slots_setAll : ∀ (vs : List Value) (p : ArgumentArray T) (i : Nat),
    i + vs.length ≤ T.paramSize →
      (setAll p i vs).slots =
        p.slots.take i ++ vs.map Argument.store ++ p.slots.drop (i + vs.length)
  | [], p, i, _ => by simp [setAll]
  | v :: vs, p, i, h => by
      rw [List.length_cons] at h
      have hi : i < p.slots.length := by rw [p.size_eq]; omega
      rw [setAll, slots_setAll vs _ _ (by omega)]
      simp only [ArgumentArray.set, List.map_cons, List.length_cons]
      rw [List.take_set, List.take_succ_eq_append_getElem hi,
        List.drop_set_of_lt (by omega),
        List.set_append_right _ _ (by rw [List.length_take]; exact Nat.min_le_left _ _)]
      have hlen : (p.slots.take i).length = i := List.length_take_of_le (by omega)
      rw [hlen, Nat.sub_self, List.set_cons_zero, Nat.add_right_comm i 1, Nat.add_assoc i]
      simp

end CLogger

/-- The array a message that fits is enqueued as. -/
def ArgumentArray.ofValues (vs : List Value) (h : vs.length ≤ T.paramSize) : ArgumentArray T :=
  ⟨vs.map Argument.store ++ List.replicate (T.paramSize - vs.length) .default, by
    rw [List.length_append, List.length_map, List.length_replicate]
    omega⟩

namespace CLogger

theorem setAll_init {vs : List Value} (h : vs.length ≤ T.paramSize) :
    setAll ArgumentArray.init 0 vs = ArgumentArray.ofValues vs h := by
  have hslots := slots_setAll vs (ArgumentArray.init (T := T)) 0 (by omega)
  rw [List.take_zero, List.nil_append, Nat.zero_add] at hslots
  have : (setAll ArgumentArray.init 0 vs : ArgumentArray T).slots =
      (ArgumentArray.ofValues vs h).slots := by
    rw [hslots]
    simp [ArgumentArray.ofValues, ArgumentArray.init]
  cases hp : (setAll ArgumentArray.init 0 vs : ArgumentArray T)
  rw [hp] at this
  cases this
  rfl

/-- The four ways a call can reach `try_enqueue`, or not. -/
theorem prepare_cases (alloc : Nat → Bool) (threshold : UInt32) (m : Message) :
    (m.time = none ∧ m.level.underlying < threshold ∧
      (prepare alloc threshold m : Prepared T) = .filtered) ∨
    ((m.time = none → threshold ≤ m.level.underlying) ∧
      ((∃ h : m.elements.length ≤ T.paramSize, (∀ i < m.elements.length, alloc i = true) ∧
          prepare alloc threshold m = .full (.ofValues m.elements h)) ∨
        ((∃ i < m.elements.length, alloc i = false) ∧
          (prepare alloc threshold m : Prepared T) = .failed (.threw .badAlloc)) ∨
        (T.paramSize < m.elements.length ∧
          (prepare alloc threshold m : Prepared T) = .failed .outOfBounds))) := by
  rw [prepare_eq]
  by_cases hlevel : m.time = none ∧ m.level.underlying < threshold
  · exact .inl ⟨hlevel.1, hlevel.2, if_pos hlevel⟩
  · rw [if_neg hlevel]
    refine .inr ⟨fun ht => UInt32.not_lt.mp fun hlt => hlevel ⟨ht, hlt⟩, ?_⟩
    have hpass := storeAll_cases (T := T) alloc m.elements ⟨ArgumentArray.init, 0⟩ (Nat.zero_le _)
    dsimp only at hpass
    rw [Nat.zero_add] at hpass
    obtain ⟨hfit, hall, hrun⟩ | ⟨⟨i, -, hi, ha⟩, s', hrun⟩ | ⟨hover, s', hrun⟩ := hpass
    · refine .inl ⟨hfit, fun i hi => hall i (Nat.zero_le _) hi, ?_⟩
      rw [hrun, Prepared.ofResult, setAll_init hfit]
    · exact .inr (.inl ⟨⟨i, hi, ha⟩, by rw [hrun]; rfl⟩)
    · exact .inr (.inr ⟨hover, by rw [hrun]; rfl⟩)

/-- What `prepare` hands to the queue, and when it does. -/
theorem prepare_eq_full {alloc : Nat → Bool} {threshold : UInt32} {m : Message}
    {p : ArgumentArray T} :
    prepare alloc threshold m = .full p ↔
      (m.time = none → threshold ≤ m.level.underlying) ∧
      (∀ i < m.elements.length, alloc i = true) ∧
      ∃ h : m.elements.length ≤ T.paramSize, p = .ofValues m.elements h := by
  obtain ⟨ht, hlt, hp⟩ | ⟨hlevel, ⟨hfit, hall, hp⟩ | ⟨⟨i, hi, ha⟩, hp⟩ | ⟨hover, hp⟩⟩ :=
    prepare_cases (T := T) alloc threshold m <;> rw [hp]
  · refine iff_of_false (by intro h; cases h) ?_
    intro h
    exact absurd (h.1 ht) (UInt32.not_le.mpr hlt)
  · constructor
    · intro h
      cases h
      exact ⟨hlevel, hall, hfit, rfl⟩
    · rintro ⟨-, -, -, rfl⟩
      rfl
  · refine iff_of_false (by intro h; cases h) ?_
    intro h
    have htrue := h.2.1 i hi
    rw [ha] at htrue
    cases htrue
  · refine iff_of_false (by intro h; cases h) ?_
    intro h
    exact absurd h.2.2.1 (Nat.not_le.mpr hover)

theorem prepare_eq_filtered {alloc : Nat → Bool} {threshold : UInt32} {m : Message} :
    (prepare alloc threshold m : Prepared T) = .filtered ↔
      m.time = none ∧ m.level.underlying < threshold := by
  obtain ⟨ht, hlt, hp⟩ | ⟨hlevel, hp⟩ := prepare_cases (T := T) alloc threshold m
  · exact iff_of_true hp ⟨ht, hlt⟩
  · refine iff_of_false ?_ fun h => absurd (hlevel h.1) (UInt32.not_le.mpr h.2)
    obtain ⟨_, -, hp⟩ | ⟨-, hp⟩ | ⟨-, hp⟩ := hp <;> rw [hp] <;> intro h <;> cases h

/-- A message that passes the level check and does not fit leaves the array. -/
theorem prepare_outOfBounds {alloc : Nat → Bool} {threshold : UInt32} {m : Message}
    (hlevel : m.time = none → threshold ≤ m.level.underlying) (ha : ∀ i, alloc i = true)
    (hover : T.paramSize < m.elements.length) :
    (prepare alloc threshold m : Prepared T) = .failed .outOfBounds := by
  obtain ⟨ht, hlt, -⟩ | ⟨-, ⟨hfit, -⟩ | ⟨⟨i, -, hi⟩, -⟩ | ⟨-, hp⟩⟩ :=
    prepare_cases (T := T) alloc threshold m
  · exact absurd (hlevel ht) (UInt32.not_le.mpr hlt)
  · exact absurd hfit (Nat.not_le.mpr hover)
  · rw [ha i] at hi
    cases hi
  · exact hp

end CLogger

/-! ## The compile-time checks -/

/-- The `static_assert` of the overload `m` selects admits its number of
arguments exactly when what it stores fits, and keeps every access inside. -/
def AssertExact (T : LoggerTraits) (m : Message) : Prop :=
  (writeAssert T m = true ↔ m.elements.length ≤ T.paramSize) ∧
  (writeAssert T m = true → ∀ alloc threshold,
    (CLogger.prepare alloc threshold m : CLogger.Prepared T) ≠ .failed .outOfBounds)

theorem writeAssert_untimed {m : Message} (hP : 6 < T.paramSize) (ht : m.time = none) :
    writeAssert T m = true ↔ m.elements.length ≤ T.paramSize := by
  have hlt := T.paramSize_lt
  simp only [Message.length_elements, writeAssert, ht, Option.isSome_none, Bool.false_eq_true,
    if_false, decide_eq_true_eq]
  rw [sizeSub_of_le (by omega) hlt, sizeSub_of_le (by omega) (by omega)]
  omega

/-- With a time point the check is off by one: it lets one element too many in. -/
theorem writeAssert_timed {m : Message} {t : BitVec 64} (hP : 6 < T.paramSize)
    (ht : m.time = some t) :
    writeAssert T m = true ↔ m.elements.length ≤ T.paramSize + 1 := by
  have hlt := T.paramSize_lt
  simp only [Message.length_elements, writeAssert, ht, Option.isSome_some, if_true,
    decide_eq_true_eq]
  rw [sizeSub_of_le (by omega) hlt, sizeSub_of_le (by omega) (by omega)]
  omega

/-- A message that fits is filled without leaving the array. -/
theorem prepare_ne_outOfBounds {m : Message} (h : m.elements.length ≤ T.paramSize)
    (alloc : Nat → Bool) (threshold : UInt32) :
    (CLogger.prepare alloc threshold m : CLogger.Prepared T) ≠ .failed .outOfBounds := by
  intro hp
  obtain ⟨-, -, hp'⟩ | ⟨-, ⟨_, -, hp'⟩ | ⟨-, hp'⟩ | ⟨hover, -⟩⟩ :=
    CLogger.prepare_cases (T := T) alloc threshold m
  · cases hp.symm.trans hp'
  · cases hp.symm.trans hp'
  · cases hp.symm.trans hp'
  · exact absurd h (Nat.not_le.mpr hover)

theorem assertExact_iff (hP : 6 < T.paramSize) (m : Message) :
    AssertExact T m ↔ ¬ (m.time.isSome = true ∧ m.args.length = T.paramSize - 5) := by
  have hlen := m.length_elements
  cases ht : m.time with
  | none =>
      have hiff := writeAssert_untimed hP ht
      simp only [Option.isSome_none, Bool.false_eq_true, false_and, not_false_iff, iff_true]
      exact ⟨hiff, fun ha => prepare_ne_outOfBounds (hiff.mp ha)⟩
  | some t =>
      have hiff := writeAssert_timed hP ht
      rw [ht] at hlen
      simp only [Option.isSome_some, if_true] at hlen
      simp only [Option.isSome_some, true_and]
      constructor
      · rintro ⟨hexact, -⟩ hn
        have := hexact.mp (hiff.mpr (by omega))
        omega
      · intro hn
        have hfit : writeAssert T m = true ↔ m.elements.length ≤ T.paramSize := by
          rw [hiff]
          omega
        exact ⟨hfit, fun ha => prepare_ne_outOfBounds (hfit.mp ha)⟩

/-- A call with a time point and eleven trailing arguments: 17 elements. -/
def overrun : Message where
  time := some 0
  threadId := .ofInt .int32 1
  level := .info
  position := 0
  arg0 := .ofInt .int32 0
  args := List.replicate 11 (.ofInt .int32 0)

theorem assertExact_iff_overrun :
    AssertExact loggerTraits overrun ↔
      ¬ (overrun.time.isSome = true ∧ overrun.args.length = loggerTraits.paramSize - 5) :=
  assertExact_iff (by decide) overrun

theorem not_assertExact :
    ¬ ∀ (T : LoggerTraits) (m : Message), 6 < T.paramSize → AssertExact T m := by
  intro h
  have hfits := (h loggerTraits overrun (by decide)).1.mp (by decide)
  exact absurd hfits (by decide)

end Rtlog
