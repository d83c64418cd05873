/-
# `Rtlog.ReadBack` — the fields of a line

Every element that has a text puts one space behind it, so a line is a run of
ended fields and a newline, and cutting it at the spaces gives the texts back,
empty ones included — as long as no text brings a space of its own.  Numerals
and signatures never do (`not_mem_textOf`); a C string or a `char` may, and so
may a newline or a NUL, behind which a reader of the C string sees nothing.
`Message.Readable` excludes the three from the values that could bring them.

Each field is then the text of its element, and the numeral of an integer
parses to the integer (`Value.ReadsAs`).  Two messages whose fields differ
cannot share a line.
-/
import Rtlog.FileContent

namespace Rtlog

open CFormatter

variable {T : LoggerTraits}

/-! ## What a value brings into a line -/

/-- The value is a character `c`, or a C string with a `c` in it. -/
def Value.Brings (mem : Mem) (c : Char) (v : Value) : Prop :=
  v.isChar c = true ∨ ∃ p, v.pointer? = some p ∧ c ∈ (mem p).chars

/-- The value brings no space, newline or NUL. -/
def Value.Solid (mem : Mem) (v : Value) : Prop :=
  ∀ c, c = ' ' ∨ c = '\n' ∨ c = NUL → ¬ v.Brings mem c

/-- The integer that was logged. -/
def Value.integer? (v : Value) : Option Int :=
  match v.ty, v.val with
  | .int t, i => some (t.toInt i)
  | _, _ => none

/-- Numerals and signatures are made of `-`, digits and capital letters. -/
theorem not_mem_textOf {mem : Mem} {c : Char} (hminus : c ≠ '-') (hdigit : c.isDigit = false)
    (hupper : c.isUpper = false) {v : Value} (hv : ¬ v.Brings mem c) {text : List Char}
    (ht : textOf mem v.ty v.val = some text) : c ∉ text := by
  obtain ⟨t, v, hs⟩ := v
  cases t with
  | nullptrT | arrayEndMarker => cases ht
  | int t => cases ht; exact not_mem_intText hminus hdigit t v
  | timePoint => cases ht; exact not_mem_decimal hminus hdigit _
  | char =>
      cases ht
      intro h
      exact hv (.inl (decide_eq_true (List.mem_singleton.mp h).symm))
  | constCharPtr | charPtr | constCharArray n | charArray n =>
      cases ht
      intro h
      exact hv (.inr ⟨v, rfl, h⟩)
  | logLevel | logLevelType l =>
      intro h
      have := isUpper_of_mem_logLevelSignature ht h
      rw [hupper] at this
      cases this

theorem Value.Solid.not_mem {mem : Mem} {v : Value} (hv : v.Solid mem) {c : Char}
    (hc : c = ' ' ∨ c = '\n' ∨ c = NUL) {text : List Char}
    (ht : textOf mem v.ty v.val = some text) : c ∉ text := by
  have hforeign : c ≠ '-' ∧ c.isDigit = false ∧ c.isUpper = false := by
    obtain rfl | rfl | rfl := hc <;> decide
  exact not_mem_textOf hforeign.1 hforeign.2.1 hforeign.2.2 (hv c hc) ht

/-! ## The fields of a message -/

/-- The text of a value, if it has one. -/
def Value.text? (mem : Mem) (v : Value) : Option (List Char) := textOf mem v.ty v.val

/-- The field `f` is the text of the value, and parses to it if it is an integer. -/
def Value.ReadsAs (mem : Mem) (v : Value) (f : List Char) : Prop :=
  v.text? mem = some f ∧ ∀ i, v.integer? = some i → readInt f = some i

theorem Value.readsAs_of_text {mem : Mem} {v : Value} {f : List Char}
    (h : v.text? mem = some f) : v.ReadsAs mem f := by
  refine ⟨h, ?_⟩
  intro i hi
  obtain ⟨t, v, hs⟩ := v
  cases t with
  | int t =>
      cases h
      cases hi
      rw [← decimal_toInt]
      exact readInt_decimal _
  | _ => cases hi

/-- The fields of a line, its newline removed. -/
def readBack (line : List Char) : List (List Char) := cutAt ' ' line.dropLast

namespace Message

/-- The texts of the elements, in order. -/
def fields (mem : Mem) (m : Message) : List (List Char) := m.contents.filterMap (Value.text? mem)

/-- A message whose line can be read back. -/
structure Readable (T : LoggerTraits) (mem : Mem) (m : Message) : Prop where
  named : m.level.Named
  position : (positionValue m.position).Solid mem
  args : ∀ v ∈ m.threadId :: m.arg0 :: m.args, Ordinary v ∧ v.Solid mem
  short : (m.line mem).length < T.bufferSize

/-- A line is its fields, a space behind each, and a newline. -/
theorem line_eq_fields (mem : Mem) (m : Message) :
    m.line mem = ((m.fields mem).map (· ++ [' '])).flatten ++ ['\n'] := by
  unfold line fields
  congr 1
  induction m.contents with
  | nil => rfl
  | cons v vs ih =>
      rw [List.map_cons, List.flatten_cons, ih, field]
      cases ht : textOf mem v.ty v.val with
      | some text =>
          rw [List.filterMap_cons_some (f := Value.text? mem) ht, List.map_cons, List.flatten_cons]
      | none => rw [List.filterMap_cons_none (f := Value.text? mem) ht, List.nil_append]

/-- There is one field for each element that is not a null pointer. -/
theorem fields_forall₂ {mem : Mem} {m : Message} (h : ∀ v ∈ m.contents, Ordinary v) :
    List.Forall₂ (Value.ReadsAs mem) (m.contents.filter fun v => v.ty ≠ .nullptrT)
      (m.fields mem) := by
  unfold fields
  generalize m.contents = vs at h ⊢
  induction vs with
  | nil => exact .nil
  | cons v vs ih =>
      obtain ⟨hv, hvs⟩ := List.forall_mem_cons.mp h
      by_cases hnull : v.ty = .nullptrT
      · have ht : v.text? mem = none := by
          obtain ⟨t, v, hs⟩ := v
          cases hnull
          rfl
        rw [List.filterMap_cons_none ht, List.filter_cons_of_neg (by simpa using hnull)]
        exact ih hvs
      · obtain ⟨text, ht⟩ := exists_textOf mem hnull hv.1 hv.2
        rw [List.filterMap_cons_some (f := Value.text? mem) ht,
          List.filter_cons_of_pos (by simpa using hnull)]
        exact .cons (Value.readsAs_of_text ht) (ih hvs)

section Readable

variable {mem : Mem} {m : Message}

theorem Readable.contents (h : m.Readable T mem) :
    ∀ v ∈ m.contents, Ordinary v ∧ v.Solid mem := by
  have hargs : ∀ v ∈ m.arg0 :: m.args, Ordinary v ∧ v.Solid mem :=
    fun v hv => h.args v (List.mem_cons_of_mem _ hv)
  refine forall_mem_contents.mpr ⟨?_, h.args _ List.mem_cons_self, ⟨⟨?_, h.named⟩, ?_⟩,
    ⟨⟨?_, trivial⟩, h.position⟩, hargs _ List.mem_cons_self,
    fun v hv => hargs v (List.mem_cons_of_mem _ hv)⟩
  · intro t _
    refine ⟨⟨(by intro h; cases h), trivial⟩, ?_⟩
    rintro c - (h | ⟨p, h, -⟩) <;> cases h
  · intro h
    cases h
  · rintro c - (h | ⟨p, h, -⟩) <;> cases h
  · intro h
    cases h

theorem Readable.ordinary (h : m.Readable T mem) : ∀ v ∈ m.contents, Ordinary v :=
  fun v hv => (h.contents v hv).1

theorem Readable.not_mem_fields (h : m.Readable T mem) {c : Char}
    (hc : c = ' ' ∨ c = '\n' ∨ c = NUL) : ∀ f ∈ m.fields mem, c ∉ f := by
  intro f hf
  obtain ⟨v, hv, ht⟩ := List.mem_filterMap.mp hf
  exact (h.contents v hv).2.not_mem hc ht

theorem Readable.nul_not_mem_line (h : m.Readable T mem) : NUL ∉ m.line mem := by
  rw [line_eq_fields]
  intro hmem
  rcases List.mem_append.mp hmem with hmem | hmem
  · obtain ⟨_, hended, hnul⟩ := List.mem_flatten.mp hmem
    obtain ⟨f, hf, rfl⟩ := List.mem_map.mp hended
    rcases List.mem_append.mp hnul with hnul | hnul
    · exact h.not_mem_fields (.inr (.inr rfl)) f hf hnul
    · exact absurd (List.mem_singleton.mp hnul) (by decide)
  · exact absurd (List.mem_singleton.mp hmem) (by decide)

/-- The line gives the fields back. -/
theorem Readable.readBack_line (h : m.Readable T mem) : readBack (m.line mem) = m.fields mem := by
  rw [line_eq_fields, readBack, List.dropLast_concat]
  exact cutAt_flatten (h.not_mem_fields (.inl rfl))

end Readable

end Message

/-! ## What is delivered -/

namespace CLogger

/-- `text` is what the formatter, whatever it did before, returns for an array
that a call with `m` has put on the queue. -/
def Delivered (T : LoggerTraits) (mem : Mem) (m : Message) (text : List Char) : Prop :=
  ∃ (lg : CLogger T) (alloc : Nat → Bool) (accept : Bool) (t : Tid) (p : ArgumentArray T)
    (history : List (Mem × ArgumentArray T)) (f' : CFormatter T),
      (lg.write alloc accept t m).2.queue = lg.queue.push t p ∧
      format mem p (replay history) = .ok (some text) f'

theorem delivered_line {mem : Mem} {m : Message} (h : m.Readable T mem) {lg : CLogger T}
    {alloc : Nat → Bool} {accept : Bool} {t : Tid} {p : ArgumentArray T}
    (hq : (lg.write alloc accept t m).2.queue = lg.queue.push t p) (f : CFormatter T) :
    ∃ f', format mem p f = .ok (some (m.line mem ++ [NUL])) f' := by
  obtain ⟨hfit, rfl⟩ := write_queue_eq_push hq
  have hlen := h.short
  rw [← rendered_eq_line mem h.ordinary] at hlen ⊢
  obtain ⟨f', hf', -⟩ := format_message hfit (castable_of_ordinary h.ordinary) mem hlen f
  exact ⟨f', hf'⟩

theorem Delivered.beforeNul_eq {mem : Mem} {m : Message} {text : List Char}
    (hd : Delivered T mem m text) (h : m.Readable T mem) : beforeNul text = m.line mem := by
  obtain ⟨lg, alloc, accept, t, p, history, f', hq, hf⟩ := hd
  obtain ⟨f'', hf''⟩ := delivered_line h hq (replay history)
  rw [hf''] at hf
  cases hf
  rw [beforeNul_terminated, beforeNul_of_noNul h.nul_not_mem_line]

/-- Every readable message that is enqueued is delivered, what is delivered gives
its fields back, and messages with different fields are delivered differently. -/
theorem readBack_write (mem : Mem) (m : Message) (h : m.Readable T mem) :
    (∀ (lg : CLogger T) (alloc : Nat → Bool) (accept : Bool) (t : Tid) (p : ArgumentArray T),
      (lg.write alloc accept t m).2.queue = lg.queue.push t p →
        ∀ history : List (Mem × ArgumentArray T), ∃ text f',
          format mem p (replay history) = .ok (some text) f') ∧
    (∀ text, Delivered T mem m text →
      readBack (beforeNul text) = m.fields mem ∧
        List.Forall₂ (Value.ReadsAs mem) (m.contents.filter fun v => v.ty ≠ .nullptrT)
          (readBack (beforeNul text))) ∧
    ∀ (mem' : Mem) (m' : Message) (text text' : List Char), m'.Readable T mem' →
      Delivered T mem m text → Delivered T mem' m' text' → m.fields mem ≠ m'.fields mem' →
        beforeNul text ≠ beforeNul text' := by
  refine ⟨?_, ?_, ?_⟩
  · intro lg alloc accept t p hq history
    obtain ⟨f', hf'⟩ := delivered_line h hq (replay history)
    exact ⟨_, f', hf'⟩
  · intro text hd
    have hback : readBack (beforeNul text) = m.fields mem := by
      rw [hd.beforeNul_eq h, h.readBack_line]
    refine ⟨hback, ?_⟩
    rw [hback]
    exact Message.fields_forall₂ h.ordinary
  · intro mem' m' text text' h' hd hd' hne heq
    rw [hd.beforeNul_eq h, hd'.beforeNul_eq h'] at heq
    refine hne ?_
    calc m.fields mem = readBack (m.line mem) := h.readBack_line.symm
      _ = readBack (m'.line mem') := by rw [heq]
      _ = m'.fields mem' := h'.readBack_line

theorem readable_brimful (l : LogLevel) (h : l.Named)
    (hlen : (Message.line .blank { brimful with level := l }).length < loggerTraits.bufferSize) :
    Message.Readable loggerTraits .blank { brimful with level := l } where
  named := h
  position := by rintro c - (h | ⟨p, h, hc⟩) <;> cases h; cases hc
  args := by
    intro v hv
    simp only [brimful, List.mem_cons, List.mem_replicate] at hv
    rcases hv with rfl | rfl | rfl | ⟨-, rfl⟩ <;> refine ⟨⟨by decide, trivial⟩, ?_⟩ <;>
      rintro c - (h | ⟨p, h, -⟩) <;> cases h
  short := hlen

/-- A full array with an empty position, and the same at another level. -/
theorem readBack_write_brimful :
    (∃ text, Delivered loggerTraits .blank brimful text ∧
      (readBack (beforeNul text)).take 5 =
        [['1', '0', '0', '0'], ['4', '2'], ['W', 'A', 'R', 'N'], [], ['-', '1', '2', '8']]) ∧
    ∀ text text', Delivered loggerTraits .blank brimful text →
      Delivered loggerTraits .blank { brimful with level := .info } text' →
        beforeNul text ≠ beforeNul text' := by
  obtain ⟨hdelivers, hback, hdiffers⟩ := readBack_write .blank brimful
    (readable_brimful .warn (by decide) (by decide +kernel))
  constructor
  · have hfit : brimful.elements.length ≤ loggerTraits.paramSize := by decide
    have hq : ((init loggerTraits .info).write (fun _ => true) true 0 brimful).2.queue =
        (init loggerTraits .info).queue.push 0 (.ofValues brimful.elements hfit) := by
      rw [write_of_fits 0 (by decide) hfit fun _ => rfl]
    obtain ⟨text, f', hf⟩ := hdelivers _ _ _ _ _ hq []
    have hd : Delivered loggerTraits .blank brimful text := ⟨_, _, _, _, _, [], f', hq, hf⟩
    refine ⟨text, hd, ?_⟩
    rw [(hback text hd).1]
    decide +kernel
  · intro text text' hd hd'
    exact hdiffers .blank _ text text' (readable_brimful .info (by decide) (by decide +kernel))
      hd hd' (by decide +kernel)

end CLogger

end Rtlog
