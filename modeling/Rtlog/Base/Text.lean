/-
# `Rtlog.Base.Text` — characters, C strings and decimal numerals

The character data a C program hands around: a NUL-terminated string is a list
of characters without NUL (the invariant is a field of `CString`), the
characters behind a `const char*` are those before the first NUL
(`beforeNul`), and a line is a text whose only newline is its last character.
Numerals can be read back (`readInt_decimal`), and so can a run of fields that
each end in a separator (`cutAt_flatten`).
-/
import Mathlib

/-- The terminator of a C string. -/
def NUL : Char := '\x00'

/-- What a `const char*` points at. -/
structure CString where
  chars : List Char
  noNul : NUL ∉ chars

/-- What inserting a pointer to `s` into a stream writes. -/
def beforeNul (s : List Char) : List Char := s.takeWhile (· ≠ NUL)

/-- A C string with the given characters, cut at the first NUL. -/
def CString.ofChars (s : List Char) : CString where
  chars := beforeNul s
  noNul h := by simpa using List.mem_takeWhile_imp h

theorem beforeNul_of_noNul {s : List Char} (h : NUL ∉ s) : beforeNul s = s := by
  refine List.takeWhile_eq_self_iff.mpr ?_
  intro c hc
  simpa using fun heq : c = NUL => h (heq ▸ hc)

/-- A terminator behind `s` does not change what is written. -/
theorem beforeNul_terminated (s : List Char) : beforeNul (s ++ [NUL]) = beforeNul s := by
  induction s with
  | nil => simp [beforeNul]
  | cons c s ih =>
      by_cases h : c = NUL
      · subst h; simp [beforeNul]
      · simpa [beforeNul, h] using ih

theorem length_beforeNul_le (s : List Char) : (beforeNul s).length ≤ s.length :=
  (List.takeWhile_sublist _).length_le

/-- Nothing is cut exactly when there is no NUL to cut at. -/
theorem beforeNul_eq_self_iff {s : List Char} : beforeNul s = s ↔ NUL ∉ s := by
  refine ⟨?_, beforeNul_of_noNul⟩
  intro h hmem
  have := List.takeWhile_eq_self_iff.mp h NUL hmem
  simp at this

theorem length_beforeNul_lt {s : List Char} (h : NUL ∈ s) :
    (beforeNul s).length < s.length := by
  refine lt_of_le_of_ne (length_beforeNul_le s) ?_
  intro heq
  have := (List.takeWhile_sublist (fun c => decide (c ≠ NUL)) (l := s)).eq_of_length heq
  exact beforeNul_eq_self_iff.mp this h

/-- Cutting every text of a list leaves the concatenation unchanged exactly
when no text has a NUL. -/
theorem flatten_map_beforeNul_eq_iff {l : List (List Char)} :
    (l.map beforeNul).flatten = l.flatten ↔ ∀ s ∈ l, NUL ∉ s := by
  have hle : ∀ l : List (List Char), (l.map beforeNul).flatten.length ≤ l.flatten.length := by
    intro l
    induction l with
    | nil => exact Nat.le_refl _
    | cons s l ih =>
        simp only [List.map_cons, List.flatten_cons, List.length_append]
        exact Nat.add_le_add (length_beforeNul_le s) ih
  constructor
  · intro h s hs hmem
    obtain ⟨l₁, l₂, rfl⟩ := List.append_of_mem hs
    have hlen := congrArg List.length h
    simp only [List.map_append, List.map_cons, List.flatten_append, List.flatten_cons,
      List.length_append] at hlen
    have h₁ := hle l₁
    have h₂ := hle l₂
    have := length_beforeNul_lt hmem
    omega
  · intro h
    have hmap : l.map beforeNul = l.map id :=
      List.map_congr_left fun s hs => beforeNul_of_noNul (h s hs)
    rw [hmap, List.map_id]

/-! ## Lines -/

/-- One newline, at the end. -/
def IsLine (s : List Char) : Prop := ∃ body, s = body ++ ['\n'] ∧ '\n' ∉ body

/-! ## Decimal numerals -/

/-- The decimal numeral of an integer, with a leading `-` if it is negative. -/
def decimal : Int → List Char
  | .ofNat n => Nat.toDigits 10 n
  | .negSucc n => '-' :: Nat.toDigits 10 (n + 1)

theorem mem_decimal {i : Int} {c : Char} (h : c ∈ decimal i) : c = '-' ∨ c.isDigit = true := by
  cases i with
  | ofNat n => exact .inr (Nat.isDigit_of_mem_toDigits (by omega) (by omega) h)
  | negSucc n =>
      rcases List.mem_cons.mp h with rfl | h
      · exact .inl rfl
      · exact .inr (Nat.isDigit_of_mem_toDigits (by omega) (by omega) h)

/-- A character that is neither a digit nor `-` is in no numeral. -/
theorem not_mem_decimal {c : Char} (hc : c ≠ '-') (hd : c.isDigit = false) (i : Int) :
    c ∉ decimal i := by
  intro h
  rcases mem_decimal h with rfl | hd'
  · exact hc rfl
  · rw [hd] at hd'
    cases hd'

/-- The natural number a numeral without sign stands for. -/
def readNat (s : List Char) : Option Nat :=
  if s ≠ [] ∧ s.all Char.isDigit then some (Nat.ofDigitChars 10 s 0) else none

/-- The integer a numeral stands for. -/
def readInt : List Char → Option Int
  | '-' :: s => (readNat s).map fun n => -(n : Int)
  | s => (readNat s).map Int.ofNat

theorem all_isDigit_toDigits (n : Nat) : (Nat.toDigits 10 n).all Char.isDigit = true := by
  rw [List.all_eq_true]
  intro c hc
  exact Nat.isDigit_of_mem_toDigits (by omega) (by omega) hc

theorem readNat_toDigits (n : Nat) : readNat (Nat.toDigits 10 n) = some n := by
  rw [readNat, if_pos ⟨Nat.toDigits_ne_nil, all_isDigit_toDigits n⟩, Nat.ofDigitChars_ten_toDigits]

theorem readInt_of_digits {s : List Char} (h : s.all Char.isDigit = true) :
    readInt s = (readNat s).map Int.ofNat := by
  unfold readInt
  split
  · simp at h
  · rfl

/-- A numeral can be read back. -/
theorem readInt_decimal (i : Int) : readInt (decimal i) = some i := by
  cases i with
  | ofNat n =>
      rw [decimal, readInt_of_digits (all_isDigit_toDigits n), readNat_toDigits]
      rfl
  | negSucc n =>
      rw [decimal, readInt, readNat_toDigits]
      rfl

/-! ## Fields -/

/-- The fields of a text in which every field is ended by `sep`. -/
def cutAt {α : Type} [BEq α] (sep : α) (s : List α) : List (List α) := (s.splitOn sep).dropLast

/-- Ending every field is the inverse of cutting. -/
theorem cutAt_flatten {α : Type} [BEq α] [LawfulBEq α] {sep : α} :
    ∀ {fields : List (List α)}, (∀ f ∈ fields, sep ∉ f) →
      cutAt sep (fields.map (· ++ [sep])).flatten = fields := by
  intro fields
  induction fields with
  | nil => intro _; rfl
  | cons f fields ih =>
      intro h
      have hrest := ih fun g hg => h g (List.mem_cons_of_mem _ hg)
      unfold cutAt at hrest ⊢
      rw [List.map_cons, List.flatten_cons, List.append_assoc, List.singleton_append,
        List.splitOn_append_cons_self_of_not_mem (h f List.mem_cons_self),
        List.dropLast_cons_of_ne_nil (List.splitOn_ne_nil _ _), hrest]
