/-
# `Rtlog.Base.FixedBuffer` — appending to a buffer of fixed capacity

A buffer that holds at most `cap` elements; the bound is a field, so no
operation can return an overfull one.  An append that does not fit throws and
leaves what was stored.  Programs that append in several pieces are described
by one specification,

    Writes overflow prog s      `prog` appends `s`, in some pieces

whose two halves say what the program does when `s` fits and when it does not.
A piece that fails leaves the pieces before it, so in the second case only the
exception is promised, not the content.  `Writes` is closed under sequencing
(`Writes.seq`), which is all a formatter needs: the specification of a loop is
the concatenation of the specifications of its turns.

What a failing program leaves depends on the pieces.  `appendAll` is the program
that appends given pieces, and `appendAll_cases` says that it leaves the pieces
in front of the first that does not fit.  The buffer is full to the last element
exactly if some of the first pieces together have its size (`Pieces.full_iff`).
-/
import Mathlib

/-! ## Sequencing after a known outcome -/

namespace EStateM

variable {ε σ α β : Type} {p : EStateM ε σ α} {k : α → EStateM ε σ β} {s s' : σ}

theorem bind_apply_of_ok {v : α} (h : p s = .ok v s') : (p >>= k) s = k v s' := by
  simp [bind, EStateM.bind, h]

theorem bind_apply_of_error {e : ε} (h : p s = .error e s') : (p >>= k) s = .error e s' := by
  simp [bind, EStateM.bind, h]

end EStateM

/-! ## The buffer -/

/-- At most `cap` elements. -/
@[ext] structure FixedBuffer (α : Type) (cap : Nat) where
  data : List α
  size_le : data.length ≤ cap

namespace FixedBuffer

variable {α ε : Type} {cap : Nat}

/-- Nothing stored. -/
def empty : FixedBuffer α cap := ⟨[], Nat.zero_le _⟩

/-- `b` with `s` behind it. -/
def extend (b : FixedBuffer α cap) (s : List α) (h : b.data.length + s.length ≤ cap) :
    FixedBuffer α cap :=
  ⟨b.data ++ s, by rw [List.length_append]; exact h⟩

@[simp] theorem empty_data : (empty : FixedBuffer α cap).data = [] := rfl

@[simp] theorem extend_data (b : FixedBuffer α cap) (s : List α)
    (h : b.data.length + s.length ≤ cap) : (b.extend s h).data = b.data ++ s := rfl

/-- Append all of `s`, or throw and store nothing. -/
def append (overflow : ε) (s : List α) : EStateM ε (FixedBuffer α cap) Unit := fun b =>
  if h : b.data.length + s.length ≤ cap then .ok () (b.extend s h) else .error overflow b

/-! ## The specification of an appending program -/

/-- `prog` appends `s`: if `s` fits it returns with `s` stored, if not it throws. -/
structure Writes (overflow : ε) (prog : EStateM ε (FixedBuffer α cap) Unit) (s : List α) :
    Prop where
  fits : ∀ (b : FixedBuffer α cap) (h : b.data.length + s.length ≤ cap),
    prog b = .ok () (b.extend s h)
  full : ∀ b : FixedBuffer α cap, cap < b.data.length + s.length →
    ∃ b', prog b = .error overflow b'

variable {overflow : ε}

theorem writes_append (s : List α) :
    Writes overflow (append overflow s : EStateM ε (FixedBuffer α cap) Unit) s where
  fits _ h := dif_pos h
  full b h := ⟨b, dif_neg (Nat.not_le.mpr h)⟩

/-- Appending nothing always fits and stores nothing. -/
theorem append_nil : (append overflow [] : EStateM ε (FixedBuffer α cap) Unit) = pure () := by
  funext b
  have hroom : b.data.length + ([] : List α).length ≤ cap := by simpa using b.size_le
  have hsame : b.extend [] hroom = b := by
    ext1
    simp
  rw [append, dif_pos hroom, hsame]
  rfl

theorem writes_pure :
    Writes overflow (pure () : EStateM ε (FixedBuffer α cap) Unit) [] := by
  have h : Writes overflow (append overflow [] : EStateM ε (FixedBuffer α cap) Unit) [] :=
    writes_append []
  rwa [append_nil] at h

/-- Two appending programs in sequence append the two contents in order. -/
theorem Writes.seq {p q : EStateM ε (FixedBuffer α cap) Unit} {s t : List α}
    (hp : Writes overflow p s) (hq : Writes overflow q t) :
    Writes overflow (do p; q) (s ++ t) where
  fits b h := by
    have h₁ : b.data.length + s.length ≤ cap := by
      rw [List.length_append] at h
      omega
    have h₂ : (b.extend s h₁).data.length + t.length ≤ cap := by
      simpa [Nat.add_assoc] using h
    rw [EStateM.bind_apply_of_ok (hp.fits b h₁), hq.fits _ h₂]
    congr 1
    ext1
    simp
  full b h := by
    by_cases h₁ : b.data.length + s.length ≤ cap
    · -- the first part is stored, the second does not fit behind it
      obtain ⟨b', hb'⟩ := hq.full (b.extend s h₁) (by simpa [Nat.add_assoc] using h)
      exact ⟨b', by rw [EStateM.bind_apply_of_ok (hp.fits b h₁), hb']⟩
    · obtain ⟨b', hb'⟩ := hp.full b (Nat.not_le.mp h₁)
      exact ⟨b', EStateM.bind_apply_of_error hb'⟩

/-! ## Piece by piece -/

/-- Append the pieces one after the other. -/
def appendAll (overflow : ε) : List (List α) → EStateM ε (FixedBuffer α cap) Unit
  | [] => pure ()
  | s :: ss => do
      append overflow s
      appendAll overflow ss

theorem appendAll_append (ss ts : List (List α)) :
    (appendAll overflow (ss ++ ts) : EStateM ε (FixedBuffer α cap) Unit) =
      (do appendAll overflow ss; appendAll overflow ts) := by
  induction ss with
  | nil => simp [appendAll]
  | cons s ss ih => simp [appendAll, ih]

/-- `b'` holds what `b` held and the first pieces of `ss`: all of them, or those
in front of one that does not fit. -/
def Pieces (b : FixedBuffer α cap) (ss : List (List α)) (b' : FixedBuffer α cap) : Prop :=
  ∃ done rest, ss = done ++ rest ∧ b'.data = b.data ++ done.flatten ∧
    ∀ s ∈ rest.head?, cap < b'.data.length + s.length

theorem Pieces.cons {b b' : FixedBuffer α cap} {s : List α} {ss : List (List α)}
    {h : b.data.length + s.length ≤ cap} (hp : Pieces (b.extend s h) ss b') :
    Pieces b (s :: ss) b' := by
  obtain ⟨done, rest, rfl, hdata, hrest⟩ := hp
  refine ⟨s :: done, rest, rfl, ?_, hrest⟩
  rw [hdata, extend_data, List.flatten_cons, List.append_assoc]

/-- The two ways appending pieces can end. -/
theorem appendAll_cases : ∀ (ss : List (List α)) (b : FixedBuffer α cap),
    ∃ b', Pieces b ss b' ∧
      (appendAll overflow ss b = .ok () b' ∨ appendAll overflow ss b = .error overflow b') := by
  intro ss
  induction ss with
  | nil =>
      intro b
      exact ⟨b, ⟨[], [], rfl, by simp, by simp⟩, .inl rfl⟩
  | cons s ss ih =>
      intro b
      rw [appendAll]
      by_cases h : b.data.length + s.length ≤ cap
      · obtain ⟨b', hp, hrun⟩ := ih (b.extend s h)
        have hs : append overflow s b = .ok () (b.extend s h) := dif_pos h
        exact ⟨b', hp.cons, by rwa [EStateM.bind_apply_of_ok hs]⟩
      · have hs : append overflow s b = .error overflow b := dif_neg h
        refine ⟨b, ⟨[], s :: ss, rfl, by simp, ?_⟩, .inr (EStateM.bind_apply_of_error hs)⟩
        intro s' hs'
        cases hs'
        exact Nat.not_le.mp h

/-- The buffer is full exactly if some of the first pieces fill it. -/
theorem Pieces.full_iff {b b' : FixedBuffer α cap} {ss : List (List α)} (hp : Pieces b ss b') :
    b'.data.length = cap ↔ ∃ done, done <+: ss ∧ b.data.length + done.flatten.length = cap := by
  obtain ⟨done, rest, rfl, hdata, hrest⟩ := hp
  have hlen : b'.data.length = b.data.length + done.flatten.length := by
    rw [hdata, List.length_append]
  constructor
  · intro h
    exact ⟨done, List.prefix_append _ _, hlen.symm.trans h⟩
  · rintro ⟨done', hpre, hfull⟩
    refine le_antisymm b'.size_le ?_
    rcases List.prefix_or_prefix_of_prefix hpre (List.prefix_append done rest) with h | h
    · have hle := (List.Sublist.flatten h.sublist).length_le
      omega
    · -- more pieces than were stored do not fit
      obtain ⟨more, rfl⟩ := h
      rw [List.prefix_append_right_inj] at hpre
      cases more with
      | nil =>
          rw [List.append_nil] at hfull
          omega
      | cons s more =>
          obtain ⟨tail, rfl⟩ := hpre
          have hs := hrest s rfl
          simp only [List.flatten_append, List.flatten_cons, List.length_append] at hfull
          omega

end FixedBuffer
