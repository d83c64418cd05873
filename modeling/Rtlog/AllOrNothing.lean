/-
# `Rtlog.AllOrNothing` — an array is enqueued whole, or not at all

A call of `write` fills an array of its own and hands it to the queue at the end,
so wherever it fails the queue has not seen it.  `write_cases` is that, with the
four ways a call can end side by side.

What is handed over is whole (`ArgumentArray.Filled`): no empty slot in front of
the end marker, and nothing but empty slots behind it.  Every array in the queue
has come from such a call, and so has every array the consumer takes out of it
(`Ledger`, `Written`), so the consumer never meets one that is filled in part.
-/
import Rtlog.History

namespace Rtlog

variable {T : LoggerTraits}

/-- The end marker of `write` stands behind slots that are not empty, and in
front of slots that all are. -/
def ArgumentArray.Filled (p : ArgumentArray T) : Prop :=
  ∃ n, p.slots[n]? = some (Argument.store Message.endMarker) ∧
    (∀ (i : Nat) (a : Argument), i < n → p.slots[i]? = some a → a.empty = false) ∧
    ∀ (i : Nat) (a : Argument), n < i → p.slots[i]? = some a → a.empty = true

theorem ArgumentArray.filled_ofValues (m : Message) (fits : m.elements.length ≤ T.paramSize) :
    (ArgumentArray.ofValues m.elements fits : ArgumentArray T).Filled := by
  have hlen : m.elements.length = m.contents.length + 1 := by simp [Message.elements]
  refine ⟨m.contents.length, ArgumentArray.slots_ofValues fits (by simp [Message.elements]), ?_, ?_⟩
  · intro i a hi ha
    obtain ⟨v, hv⟩ : ∃ v, m.elements[i]? = some v :=
      ⟨_, List.getElem?_eq_getElem (by omega)⟩
    rw [ArgumentArray.slots_ofValues fits hv] at ha
    cases ha
    rfl
  · intro i a hi ha
    have hbehind : (m.elements.map Argument.store).length ≤ i := by
      rw [List.length_map]
      omega
    have hslot : (List.replicate (T.paramSize - m.elements.length) Argument.default)[
        i - (m.elements.map Argument.store).length]? = some a := by
      rw [← List.getElem?_append_right hbehind]
      exact ha
    rw [(List.mem_replicate.mp (List.mem_of_getElem? hslot)).2]
    rfl

namespace CLogger

/-- The four ways a call can end that stores no more than fits. -/
theorem write_cases (lg : CLogger T) (alloc : Nat → Bool) (accept : Bool) (t : Tid) (m : Message)
    (fits : m.elements.length ≤ T.paramSize) :
    ((m.time = none ∧ m.level.underlying < lg.level) ∧
      lg.write alloc accept t m = (.returned true, lg)) ∨
    ((m.time = none → lg.level ≤ m.level.underlying) ∧
      (((∃ i < m.elements.length, alloc i = false) ∧
          lg.write alloc accept t m = (.threw .badAlloc, lg)) ∨
        ((∀ i < m.elements.length, alloc i = true) ∧ accept = false ∧
          lg.write alloc accept t m = (.returned false, lg)) ∨
        ((∀ i < m.elements.length, alloc i = true) ∧ accept = true ∧
          ∃ p : ArgumentArray T, p.Filled ∧ lg.write alloc accept t m =
            (.returned true, { lg with queue := lg.queue.push t p })))) := by
  unfold write
  obtain ⟨ht, hlt, hp⟩ | ⟨hlevel, ⟨hfit, hall, hp⟩ | ⟨hsome, hp⟩ | ⟨hover, -⟩⟩ :=
    prepare_cases (T := T) alloc lg.level m
  · exact .inl ⟨⟨ht, hlt⟩, by rw [hp]⟩
  · rw [hp]
    cases accept with
    | false => exact .inr ⟨hlevel, .inr (.inl ⟨hall, rfl, rfl⟩)⟩
    | true =>
        exact .inr ⟨hlevel, .inr (.inr ⟨hall, rfl, _, ArgumentArray.filled_ofValues m hfit, rfl⟩)⟩
  · exact .inr ⟨hlevel, .inl ⟨hsome, by rw [hp]⟩⟩
  · exact absurd fits (Nat.not_le.mpr hover)

end CLogger

/-- What the consumer can see is filled: the arrays in the queue, and the one it
has taken out and is about to format. -/
theorem filled_of_run {mem : Mem} {level : LogLevel} {as : List (Action T)} {s : Sys T}
    (hrun : (machine T).run (.init T mem level) as = some s) :
    (∀ t, ∀ p ∈ s.logger.queue t, p.Filled) ∧ (s.pc = .format → s.argumentArray.Filled) := by
  obtain ⟨h, hrec⟩ := World.exists_run hrun
  have hL := Ledger.of_run hrec
  have hW := Written.of_run hrec
  constructor
  · intro t p hp
    rw [show s.logger.queue = _ from hL.queue] at hp
    obtain ⟨e, -, rfl⟩ := List.mem_map.mp hp
    exact ArgumentArray.filled_ofValues e.call.msg e.fits
  · intro hpc
    obtain ⟨e, -, -, harray, -⟩ := hW.exists_format hpc
    rw [show s.argumentArray = _ from harray]
    exact ArgumentArray.filled_ofValues e.call.msg e.fits

/-- A call that throws, is refused or is filtered leaves the queue; any other adds
one filled array to it.  In every state the threads can reach the consumer sees
filled arrays only. -/
theorem write_all_or_nothing (lg : CLogger T) (alloc : Nat → Bool) (accept : Bool) (t : Tid)
    (m : Message) (fits : m.elements.length ≤ T.paramSize) {mem : Mem} {level : LogLevel}
    {as : List (Action T)} {s : Sys T} (hrun : (machine T).run (.init T mem level) as = some s) :
    (((m.time = none ∧ m.level.underlying < lg.level) ∧
      lg.write alloc accept t m = (.returned true, lg)) ∨
    ((m.time = none → lg.level ≤ m.level.underlying) ∧
      (((∃ i < m.elements.length, alloc i = false) ∧
          lg.write alloc accept t m = (.threw .badAlloc, lg)) ∨
        ((∀ i < m.elements.length, alloc i = true) ∧ accept = false ∧
          lg.write alloc accept t m = (.returned false, lg)) ∨
        ((∀ i < m.elements.length, alloc i = true) ∧ accept = true ∧
          ∃ p : ArgumentArray T, p.Filled ∧ lg.write alloc accept t m =
            (.returned true, { lg with queue := lg.queue.push t p }))))) ∧
    (∀ t, ∀ p ∈ s.logger.queue t, p.Filled) ∧ (s.pc = .format → s.argumentArray.Filled) :=
  ⟨CLogger.write_cases lg alloc accept t m fits, filled_of_run hrun⟩

/-- `LOG_INFO(7)` without a time point is enqueued, and the consumer takes it. -/
def handedOver : List (Action loggerTraits) :=
  [.call 0 (.bare ⟨none, .ofInt .int32 1, .info, 0, .ofInt .int32 7, []⟩ rfl) fun _ => true,
    .enqueue 0 true, .consume ⟨none, 0⟩, .consume ⟨some 0, 0⟩]

/-- The third store of a call fails, and the logger is as it was; what the consumer has
taken meanwhile is filled. -/
theorem write_all_or_nothing_third : ∃ s : Sys loggerTraits,
    (machine loggerTraits).run (.init _ .blank .info) handedOver = some s ∧ s.pc = .format ∧
      (s.logger.write (fun i => i ≠ 2) true 0 CLogger.brimful).2 = s.logger ∧
      s.argumentArray.Filled := by
  obtain ⟨s, hrun, hpc⟩ : ∃ s : Sys loggerTraits,
      (machine loggerTraits).run (.init _ .blank .info) handedOver = some s ∧ s.pc = .format :=
    ⟨_, rfl, rfl⟩
  obtain ⟨hwrite, -, hfilled⟩ := write_all_or_nothing s.logger (fun i => i ≠ 2) true 0
    CLogger.brimful (by decide) hrun
  refine ⟨s, hrun, hpc, ?_, hfilled hpc⟩
  obtain ⟨-, h⟩ | ⟨-, ⟨-, h⟩ | ⟨hall, -⟩ | ⟨hall, -⟩⟩ := hwrite
  · rw [h]
  · rw [h]
  · exact absurd (hall 2 (by decide)) (by decide)
  · exact absurd (hall 2 (by decide)) (by decide)

end Rtlog
