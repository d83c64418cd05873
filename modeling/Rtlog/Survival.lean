/-
# `Rtlog.Survival` — what can stop the consumer

The producers bound the number of elements of a message, the formatter's buffer
bounds the number of its characters, and nothing between the two compares them.
A text that does not leave room for the terminator makes `format` throw on the
consumer's thread, where nothing catches it.

For messages of integers, characters, levels, time points and C strings that is
the only way to stop it: the program is gone exactly if one of the messages it
has formatted was as long as the buffer or longer (`terminated_iff`), and a
message that is shorter is formatted, inserted, and left behind.
-/
import Rtlog.FileContent

namespace Rtlog

variable {T : LoggerTraits}

/-- An integer, a character, a level, a time point or a C string. -/
def Value.Plain (v : Value) : Prop :=
  match v.ty with
  | .int _ | .char | .logLevel | .timePoint | .constCharPtr | .constCharArray _ => True
  | .nullptrT | .charPtr | .charArray _ | .logLevelType _ | .arrayEndMarker => False

theorem Value.Plain.noMarker {v : Value} (h : v.Plain) : v.ty ≠ .arrayEndMarker := by
  intro hty
  rw [Value.Plain, hty] at h
  exact h

theorem Value.Plain.castable {v : Value} (h : v.Plain) (n : Nat) : v.ty ≠ .charArray n := by
  intro hty
  rw [Value.Plain, hty] at h
  exact h

/-- A message of plain values formats exactly if its text is shorter than the
buffer. -/
theorem formats_iff_of_plain {m : Message} (h : ∀ v ∈ m.contents, v.Plain) (mem : Mem) :
    m.Formats T mem ↔ (m.text mem).length < T.bufferSize := by
  have hc : m.Castable := by
    intro v hv n
    exact (h v (List.takeWhile_subset _ hv)).castable n
  rw [← Message.rendered_eq_text mem fun v hv => (h v hv).noMarker]
  exact and_iff_right hc

section Run

variable {mem : Mem} {level : LogLevel} {as : List (Action T)} {w : World T}

theorem not_alive_iff {s : Sys T} : ¬ s.alive = true ↔ ∃ e, s.pc = .terminated e := by
  constructor
  · intro h
    cases hpc : s.pc with
    | terminated e => exact ⟨e, rfl⟩
    | _ => exact absurd (Sys.alive_of_pc hpc rfl) h
  · rintro ⟨e, hpc⟩ h
    rw [Sys.alive, hpc] at h
    cases h

/-- In every run over plain messages: an exception has left `consume()` exactly
if a message whose text is no shorter than the buffer was formatted, and the
message in hand, if its text is shorter, is formatted and the consumer goes on. -/
theorem terminated_iff (hrun : (recorded T).run (.init T mem level) as = some w)
    (hplain : ∀ t, ∀ e ∈ w.hist.accepted t, ∀ v ∈ e.call.msg.contents, v.Plain) :
    ((∃ e, w.now.pc = .terminated e) ↔
      ∃ x ∈ w.hist.turns, T.bufferSize ≤ (x.entry.call.msg.text x.mem).length) ∧
    (w.now.pc = .format → ∃ e, w.hist.dequeued.getLast? = some e ∧
      ((e.call.msg.text w.now.mem).length < T.bufferSize → ∀ ch ch', ∃ w' w'',
        (recorded T).step w (.consume ch) = some w' ∧
        w'.now.pc = .insert (some (e.call.msg.text w.now.mem ++ [NUL])) ∧
        (recorded T).step w' (.consume ch') = some w'' ∧ w''.now.pc = .tryDequeue)) := by
  have hL := Ledger.of_run hrun
  have hW := Written.of_run hrun
  constructor
  · rw [← not_alive_iff, hW.sound]
    push Not
    refine exists_congr fun x => and_congr_right fun hx => ?_
    have hx' := hplain _ _ (entry_mem_accepted hrun hx)
    rw [Turn.Formats, formats_iff_of_plain hx', Nat.not_lt]
  · intro hpc
    obtain ⟨e, -, hde, harray, -, -⟩ := hW.exists_format hpc
    have hlast : w.hist.dequeued.getLast? = some e := by
      rw [hde, List.map_append]
      simp
    have hmem : e ∈ w.hist.dequeued := List.mem_of_getLast? hlast
    have hplain' := hplain _ _ (hL.conserves.removed_subset hmem)
    refine ⟨e, hlast, ?_⟩
    intro hlen ch ch'
    have hF := (formats_iff_of_plain hplain' w.now.mem).mpr hlen
    rw [← Message.rendered_eq_text _ fun v hv => (hplain' v hv).noMarker]
    obtain ⟨w', w'', hs, hins, hs', hend, -, -⟩ := World.exists_turn hpc harray hF ch ch'
    exact ⟨w', w'', hs, hins, hs', hend⟩

end Run

/-! ## A message that stops it -/

/-- A message that cannot be formatted leaves the consumer thrown out. -/
theorem exists_run_thrown (mem : Mem) (c : Call T) (fits : c.msg.elements.length ≤ T.paramSize)
    (hF : ¬ c.msg.Formats T mem) :
    ∃ w, (recorded T).run (.init T mem .info) (fetched c ++ [.consume ⟨none, 0⟩]) = some w ∧
      (∃ e, w.now.pc = .terminated e) ∧
      w.hist.accepted = Lanes.empty.push 0 (firstEntry mem c fits) ∧
      w.hist.turns = [⟨firstEntry mem c fits, mem⟩] := by
  obtain ⟨w, hrun, hpc, hmem, harray, -, hacc, hde, hturns⟩ := exists_run_fetched mem c fits
  obtain ⟨e, f', hf⟩ : ∃ e f', CFormatter.format w.now.mem w.now.argumentArray w.now.formatter =
      .error e f' := by
    rw [hmem, harray]
    rcases format_ofValues fits mem w.now.formatter with ⟨h, -⟩ | ⟨-, hf⟩
    · exact absurd h hF
    · exact hf
  have hadd := Hist.add_formatted w.now.mem (show w.hist.dequeued = [] ++ [_] from hde)
  have hlast := World.run_cons (.formatThrow ⟨none, 0⟩ hpc hf) <| Machine.run_nil (recorded T) _
  have hsplit : (recorded T).run (.init T mem .info) (fetched c ++ [.consume ⟨none, 0⟩]) =
      (recorded T).run w [.consume ⟨none, 0⟩] := by
    rw [Machine.run_append, hrun]
    rfl
  refine ⟨_, hsplit.trans hlast, ⟨e, rfl⟩, ?_, ?_⟩
  · show (w.hist.add (.formatted w.now.mem)).accepted = _
    rw [hadd]
    exact hacc
  · show (w.hist.add (.formatted w.now.mem)).turns = _
    rw [hadd, hturns, hmem]
    rfl

/-- `LOG_INFO(p)` of a C string, without a time point. -/
def strCall (p : Ptr) : Call loggerTraits :=
  .bare ⟨none, .ofInt .int32 1, .info, 0, .ofStr p, []⟩ rfl

/-- A string of 1024 characters at 1. -/
def longMem : Mem :=
  Function.update Mem.blank 1 (.ofChars (List.replicate 1024 'x'))

theorem plain_strCall (p : Ptr) : ∀ v ∈ (strCall p).msg.contents, v.Plain := by
  refine Message.forall_mem_contents.mpr ⟨?_, trivial, trivial, trivial, trivial, ?_⟩
  · intro t ht
    cases ht
  · intro v hv
    cases hv

theorem fits_strCall (p : Ptr) :
    (strCall p).msg.elements.length ≤ loggerTraits.paramSize := Call.fits_bare _ rfl

theorem length_text_strCall :
    loggerTraits.bufferSize ≤ ((strCall 1).msg.text longMem).length := by
  decide +kernel

/-- The run of that message, and what is known of it. -/
theorem exists_run_long : ∃ w, (recorded loggerTraits).run (.init _ longMem .info)
      (fetched (strCall 1) ++ [.consume ⟨none, 0⟩]) = some w ∧
    (∃ e, w.now.pc = .terminated e) ∧
    (∀ t, ∀ e ∈ w.hist.accepted t, ∀ v ∈ e.call.msg.contents, v.Plain) ∧
    w.hist.turns = [⟨firstEntry longMem (strCall 1) (fits_strCall 1), longMem⟩] := by
  have hF : ¬ (strCall 1).msg.Formats loggerTraits longMem := by
    rw [formats_iff_of_plain (plain_strCall 1)]
    exact Nat.not_lt.mpr length_text_strCall
  obtain ⟨w, hrun, hpc, hacc, hturns⟩ := exists_run_thrown longMem (strCall 1) (fits_strCall 1) hF
  refine ⟨w, hrun, hpc, ?_, hturns⟩
  intro t e he
  rw [hacc] at he
  rcases Lanes.mem_push.mp he with he | ⟨-, rfl⟩
  · cases he
  · exact plain_strCall 1

theorem terminated_iff_long : ∃ w, (recorded loggerTraits).run (.init _ longMem .info)
      (fetched (strCall 1) ++ [.consume ⟨none, 0⟩]) = some w ∧
    ∃ e, w.now.pc = .terminated e := by
  obtain ⟨w, hrun, -, hplain, hturns⟩ := exists_run_long
  have hlong : ∃ x ∈ w.hist.turns,
      loggerTraits.bufferSize ≤ (x.entry.call.msg.text x.mem).length := by
    rw [hturns]
    exact ⟨_, List.mem_singleton_self _, length_text_strCall⟩
  exact ⟨w, hrun, (terminated_iff hrun hplain).1.mpr hlong⟩

theorem not_survives :
    ¬ ∀ (T : LoggerTraits) (mem : Mem) (level : LogLevel) (as : List (Action T)) (w : World T),
      (recorded T).run (.init T mem level) as = some w →
        (∀ t, ∀ e ∈ w.hist.accepted t, ∀ v ∈ e.call.msg.contents, v.Plain) →
          ∀ e, w.now.pc ≠ .terminated e := by
  intro h
  obtain ⟨w, hrun, ⟨e, hpc⟩, hplain, -⟩ := exists_run_long
  exact h _ _ _ _ w hrun hplain e hpc

end Rtlog
