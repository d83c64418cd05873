/-
# `Rtlog.Base.LaneQueue` — a queue with many consumers, by its events

What the callers of a queue may rely on when producers and consumers run at the
same time.  Each producer has a lane; a consumer claims the head of some lane at
one moment, and returns it at a later one:

    push i a      `a` is at the end of lane `i`
    claim c i a   `a` was at the head of lane `i`, and is in the hand of `c`
    answer c r    a call of `c` returns what it had in hand

Two equations hold of every path of events.  They are about one producer and
about one consumer, so nothing is said of the order of the claims of different
consumers, and of the items of different producers.

    lane before ++ pushed   =  claimed ++ lane after       `fifo`
    hand before ++ claimed  =  returned ++ hand after      `answered`
-/
import Rtlog.Base.Machine
import Rtlog.Base.Lanes

namespace LaneQueue

/-- What the callers see of a step. -/
inductive Event (ι κ α : Type) where
  | push (i : ι) (a : α)
  | claim (c : κ) (i : ι) (a : α)
  | answer (c : κ) (r : Option α)
  deriving DecidableEq

end LaneQueue

/-- The lanes, and what each consumer has claimed and not yet returned. -/
structure LaneQueue (ι κ α : Type) where
  lanes : Lanes ι α
  hand : κ → Option α

namespace LaneQueue

variable {ι κ α : Type}

/-- Nothing pushed. -/
def empty : LaneQueue ι κ α := ⟨Lanes.empty, fun _ => none⟩

/-- Lane `i` has `r` in front. -/
def Front (t : LaneQueue ι κ α) (i : ι) (r : Option α) : Prop :=
  r ≠ none ∧ (t.lanes i).head? = r

variable [DecidableEq ι] [DecidableEq κ]

omit [DecidableEq κ] in
/-- What is pushed gets no lane's front. -/
theorem Front.push {t : LaneQueue ι κ α} {i : ι} {r : Option α} (h : t.Front i r) (j : ι) (a : α) :
    Front { t with lanes := t.lanes.push j a } i r := by
  obtain ⟨hne, hhead⟩ := h
  refine ⟨hne, ?_⟩
  rcases eq_or_ne i j with rfl | hij
  · cases r with
    | none => exact absurd rfl hne
    | some b => simp only [Lanes.push_same, List.head?_append, hhead, Option.some_or]
  · simp only [Lanes.push_of_ne hij]
    exact hhead

/-- What may happen. -/
inductive Next : LaneQueue ι κ α → Event ι κ α → LaneQueue ι κ α → Prop
  | push (t : LaneQueue ι κ α) (i : ι) (a : α) :
      Next t (.push i a) { t with lanes := t.lanes.push i a }
  | claim {t : LaneQueue ι κ α} {c : κ} {i : ι} {a : α} {lanes : Lanes ι α}
      (hhand : t.hand c = none) (hpop : t.lanes.pop? i = some (a, lanes)) :
      Next t (.claim c i a) ⟨lanes, Function.update t.hand c (some a)⟩
  | answer (t : LaneQueue ι κ α) (c : κ) :
      Next t (.answer c (t.hand c)) { t with hand := Function.update t.hand c none }

/-! ## What an observer adds up -/

/-- What producer `i` has pushed. -/
def pushed (i : ι) : List (Event ι κ α) → List α :=
  List.filterMap fun
    | .push j a => if j = i then some a else none
    | _ => none

/-- What was claimed of producer `i`, by whomever. -/
def claimedFrom (i : ι) : List (Event ι κ α) → List α :=
  List.filterMap fun
    | .claim _ j a => if j = i then some a else none
    | _ => none

/-- What consumer `c` has claimed, of whomever. -/
def claimedBy (c : κ) : List (Event ι κ α) → List α :=
  List.filterMap fun
    | .claim d _ a => if d = c then some a else none
    | _ => none

/-- What calls of consumer `c` have returned. -/
def returned (c : κ) : List (Event ι κ α) → List α :=
  List.filterMap fun
    | .answer d r => if d = c then r else none
    | _ => none

omit [DecidableEq κ] in
theorem pushed_append (i : ι) (es fs : List (Event ι κ α)) :
    pushed i (es ++ fs) = pushed i es ++ pushed i fs := List.filterMap_append

variable {t u : LaneQueue ι κ α} {es : List (Event ι κ α)}

/-- First in, first out, for each producer; nothing is lost and nothing comes out twice. -/
theorem fifo (h : EventPath Next t es u) (i : ι) :
    t.lanes i ++ pushed i es = claimedFrom i es ++ u.lanes i := by
  induction h with
  | nil t => exact List.append_nil _
  | @cons t t' u e es hn _ ih =>
      cases hn with
      | push j a =>
          rcases eq_or_ne j i with rfl | hne
          · simp only [Lanes.push_same, List.append_assoc] at ih
            simpa [pushed, claimedFrom] using ih
          · simp only [Lanes.push_of_ne hne.symm] at ih
            simpa [pushed, claimedFrom, hne] using ih
      | @claim c j a lanes _ hpop =>
          obtain ⟨rest, hlane, rfl⟩ := Lanes.pop?_eq_some.mp hpop
          rcases eq_or_ne j i with rfl | hne
          · simp only [Function.update_self] at ih
            simpa [pushed, claimedFrom, hlane] using ih
          · simp only [Function.update_of_ne hne.symm] at ih
            simpa [pushed, claimedFrom, hne] using ih
      | answer c => simpa [pushed, claimedFrom] using ih

/-- What a consumer has claimed it returns, in the same order. -/
theorem answered (h : EventPath Next t es u) (c : κ) :
    (t.hand c).toList ++ claimedBy c es = returned c es ++ (u.hand c).toList := by
  induction h with
  | nil t => exact List.append_nil _
  | @cons t t' u e es hn _ ih =>
      cases hn with
      | push j a => simpa [claimedBy, returned] using ih
      | @claim d j a lanes hhand hpop =>
          rcases eq_or_ne d c with rfl | hne
          · simp only [Function.update_self] at ih
            simpa [claimedBy, returned, hhand] using ih
          · simp only [Function.update_of_ne hne.symm] at ih
            simpa [claimedBy, returned, hne] using ih
      | answer d =>
          rcases eq_or_ne d c with rfl | hne
          · simp only [Function.update_self] at ih
            cases hd : t.hand d with
            | none => simpa [claimedBy, returned, hd] using ih
            | some a => simpa [claimedBy, returned, hd] using ih
          · simp only [Function.update_of_ne hne.symm] at ih
            simpa [claimedBy, returned, hne] using ih

end LaneQueue
