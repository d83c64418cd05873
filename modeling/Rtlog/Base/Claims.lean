/-
# `Rtlog.Base.Claims` — taking items on the strength of a counter

Items are made one after the other, `tail` of them so far, and taken one after
the other, `head` of them so far, by any number of claimants, none of which ever
waits for another.  A claimant

    look       reads `overcommit`
    draw       takes the next number of `optimistic`, its ticket
    enrol      compares the ticket with `tail`:  number < overcommit read + tail
    refuse     ... or gives up instead, which it may always do
    claim      takes the next number of `head`, the item it gets
    yield      returns its ticket, by one more in `overcommit`

Between any two of these steps any other claimant may make any number of its
own, so the `overcommit` and the `tail` a claimant has read may be long out of
date when it uses them.  Nevertheless an admitted claimant finds an item
(`Sound.head_lt_tail`).

The reason is a record of what became of each ticket.  The `overcommit` read
before a ticket was drawn counts lost tickets *before* it, so a ticket that is
admitted satisfies

    number + 1  ≤  lost tickets before it  +  tail

and goes on doing so, since neither side's growth can break it.  The last ticket
that was admitted then bounds how many were.
-/
import Rtlog.Base.Tally

/-- Where a claimant is. -/
inductive Claimant where
  | idle
  | looked (overcommit : Nat)
  | drawn (overcommit number : Nat)
  | admitted (number : Nat)
  | refused (number : Nat)
  deriving DecidableEq, Repr

/-- The ticket a claimant holds. -/
def Claimant.number? : Claimant → Option Nat
  | .idle | .looked _ => none
  | .drawn _ m | .admitted m | .refused m => some m

/-- What became of a ticket. -/
inductive Fate where
  | open
  | admitted
  | won
  | lost
  deriving DecidableEq, Repr

structure Claims (κ : Type) where
  tail : Nat
  head : Nat
  optimistic : Nat
  overcommit : Nat
  claimant : κ → Claimant

namespace Claims

variable {κ : Type}

/-- No item, no ticket. -/
def empty : Claims κ := ⟨0, 0, 0, 0, fun _ => .idle⟩

/-! ## The record -/

/-- Where a claimant may be when `fate` records what became of the tickets. -/
def Fits (s : Claims κ) (fate : Nat → Fate) : Claimant → Prop
  | .idle => True
  | .looked o => o ≤ s.overcommit
  | .drawn o m => m < s.optimistic ∧ fate m = .open ∧ o ≤ tally fate .lost m
  | .admitted m => m < s.optimistic ∧ fate m = .admitted
  | .refused m => m < s.optimistic ∧ fate m = .open

/-- `fate` records what became of the tickets drawn so far. -/
structure Ledger (s : Claims κ) (fate : Nat → Fate) : Prop where
  head_eq : s.head = tally fate .won s.optimistic
  overcommit_eq : s.overcommit = tally fate .lost s.optimistic
  fits : ∀ c, s.Fits fate (s.claimant c)
  distinct : ∀ {c d m}, (s.claimant c).number? = some m → (s.claimant d).number? = some m → c = d
  served : ∀ {m}, fate m = .admitted ∨ fate m = .won → m < tally fate .lost m + s.tail
  fresh : ∀ {m}, s.optimistic ≤ m → fate m = .open

/-- Some record fits the state. -/
def Sound (s : Claims κ) : Prop := ∃ fate, Ledger s fate

variable {s s' : Claims κ} {fate fate' : Nat → Fate}

theorem Fits.number_lt {q : Claimant} (h : s.Fits fate q) {m : Nat} (hq : q.number? = some m) :
    m < s.optimistic := by
  cases q with
  | idle => cases hq
  | looked o => cases hq
  | drawn o n => cases hq; exact h.1
  | admitted n => cases hq; exact h.1
  | refused n => cases hq; exact h.1

theorem Fits.mono {q : Claimant} (h : s.Fits fate q) (hover : s.overcommit ≤ s'.overcommit)
    (hopt : s.optimistic ≤ s'.optimistic) (hfate : ∀ m, q.number? = some m → fate' m = fate m)
    (hlost : ∀ m, tally fate .lost m ≤ tally fate' .lost m) : s'.Fits fate' q := by
  cases q with
  | idle => trivial
  | looked o => exact Nat.le_trans h hover
  | drawn o m =>
      exact ⟨Nat.lt_of_lt_of_le h.1 hopt, (hfate m rfl).trans h.2.1, Nat.le_trans h.2.2 (hlost m)⟩
  | admitted m => exact ⟨Nat.lt_of_lt_of_le h.1 hopt, (hfate m rfl).trans h.2⟩
  | refused m => exact ⟨Nat.lt_of_lt_of_le h.1 hopt, (hfate m rfl).trans h.2⟩

theorem tally_fates_le (fate : Nat → Fate) (n : Nat) :
    tally fate .admitted n + tally fate .won n + tally fate .lost n ≤ n := by
  induction n with
  | zero => simp [tally_zero]
  | succ n ih =>
      simp only [tally_succ]
      cases fate n <;> simp <;> omega

/-- Of the first `n` tickets no more were admitted than there are items. -/
theorem Ledger.admitted_le_tail (h : Ledger s fate) {n : Nat} (hn : n ≤ s.optimistic) :
    tally fate .admitted n + tally fate .won n ≤ s.tail := by
  induction n with
  | zero => simp [tally_zero]
  | succ n ih =>
      have ih := ih (by omega)
      -- the last admitted ticket is the one whose bound counts
      by_cases hs : fate n = .admitted ∨ fate n = .won
      · have hserved := h.served hs
        have hsum := tally_fates_le fate n
        rcases hs with hs | hs
        · rw [tally_succ_of_eq hs, tally_succ_of_ne (by rw [hs]; decide)]
          omega
        · rw [tally_succ_of_eq hs, tally_succ_of_ne (by rw [hs]; decide)]
          omega
      · rw [tally_succ_of_ne fun e => hs (.inl e), tally_succ_of_ne fun e => hs (.inr e)]
        exact ih

theorem Sound.head_le_tail (h : Sound s) : s.head ≤ s.tail := by
  obtain ⟨fate, h⟩ := h
  have hle := h.admitted_le_tail (Nat.le_refl _)
  rw [h.head_eq]
  omega

/-- An admitted claimant finds an item. -/
theorem Sound.head_lt_tail (h : Sound s) {c : κ} {m : Nat} (hc : s.claimant c = .admitted m) :
    s.head < s.tail := by
  obtain ⟨fate, h⟩ := h
  have hle := h.admitted_le_tail (Nat.le_refl _)
  have hfits := h.fits c
  rw [hc] at hfits
  have hpos := tally_pos hfits.1 hfits.2
  rw [h.head_eq]
  omega

theorem Sound.number_lt (h : Sound s) {c : κ} {m : Nat}
    (hc : (s.claimant c).number? = some m) : m < s.optimistic := by
  obtain ⟨fate, h⟩ := h
  exact (h.fits c).number_lt hc

theorem Sound.head_le_optimistic (h : Sound s) : s.head ≤ s.optimistic := by
  obtain ⟨fate, h⟩ := h
  rw [h.head_eq]
  exact tally_le _ _ _

/-- What was read before a ticket was drawn is no more than its number. -/
theorem Sound.overcommit_le_number (h : Sound s) {c : κ} {o m : Nat}
    (hc : s.claimant c = .drawn o m) : o ≤ m := by
  obtain ⟨fate, h⟩ := h
  have hfits := h.fits c
  rw [hc] at hfits
  exact Nat.le_trans hfits.2.2 (tally_le _ _ _)

/-- One more item. -/
def produce (s : Claims κ) : Claims κ := { s with tail := s.tail + 1 }

theorem Sound.empty : Sound (empty : Claims κ) := by
  refine ⟨fun _ => .open, ?_⟩
  constructor
  · rfl
  · rfl
  · intro c
    trivial
  · intro c d m h
    cases h
  · intro m h
    rcases h with h | h <;> cases h
  · intro m _
    rfl

theorem Sound.produce (h : Sound s) : Sound s.produce := by
  obtain ⟨fate, h⟩ := h
  refine ⟨fate, h.head_eq, h.overcommit_eq, ?_, h.distinct, ?_, h.fresh⟩
  · intro c
    exact (h.fits c).mono (Nat.le_refl _) (Nat.le_refl _) (fun _ _ => rfl) fun _ => Nat.le_refl _
  · intro m hm
    exact Nat.lt_succ_of_lt (h.served hm)

/-! ## What the claimants do -/

variable [DecidableEq κ]

/-- `c` is now at `p`. -/
def move (s : Claims κ) (c : κ) (p : Claimant) : Claims κ :=
  { s with claimant := Function.update s.claimant c p }

def look (s : Claims κ) (c : κ) : Claims κ := s.move c (.looked s.overcommit)

/-- `c`, which has read `o`, draws a ticket. -/
def draw (s : Claims κ) (c : κ) (o : Nat) : Claims κ :=
  { s.move c (.drawn o s.optimistic) with optimistic := s.optimistic + 1 }

def enrol (s : Claims κ) (c : κ) (m : Nat) : Claims κ := s.move c (.admitted m)

def refuse (s : Claims κ) (c : κ) (m : Nat) : Claims κ := s.move c (.refused m)

def claim (s : Claims κ) (c : κ) : Claims κ := { s.move c .idle with head := s.head + 1 }

def yield (s : Claims κ) (c : κ) : Claims κ :=
  { s.move c .idle with overcommit := s.overcommit + 1 }

/-- What the moves of `c` have in common: the others stay where they are, and what
they hold keeps its entry. -/
theorem Ledger.of_move {c : κ} {p : Claimant} (h : Ledger s fate)
    (hmove : s'.claimant = Function.update s.claimant c p)
    (hnum : p.number? = none ∨ p.number? = (s.claimant c).number? ∨
      p.number? = some s.optimistic)
    (hover : s.overcommit ≤ s'.overcommit) (hopt : s.optimistic ≤ s'.optimistic)
    (hfate : ∀ m, (s.claimant c).number? ≠ some m → fate' m = fate m)
    (hlost : ∀ m, tally fate .lost m ≤ tally fate' .lost m) (hp : s'.Fits fate' p)
    (hhead : s'.head = tally fate' .won s'.optimistic)
    (hovereq : s'.overcommit = tally fate' .lost s'.optimistic)
    (hserved : ∀ {m}, fate' m = .admitted ∨ fate' m = .won →
      m < tally fate' .lost m + s'.tail)
    (hfresh : ∀ {m}, s'.optimistic ≤ m → fate' m = .open) : Ledger s' fate' where
  head_eq := hhead
  overcommit_eq := hovereq
  served := hserved
  fresh := hfresh
  fits d := by
    rcases eq_or_ne d c with rfl | hne
    · rw [hmove, Function.update_self]
      exact hp
    · rw [hmove, Function.update_of_ne hne]
      refine (h.fits d).mono hover hopt (fun m hm => hfate m fun hc => hne ?_) hlost
      exact h.distinct hm hc
  distinct := by
    -- the ticket of `c` is its old one, a new one, or none
    have hother : ∀ {d m}, d ≠ c → p.number? = some m → (s.claimant d).number? ≠ some m := by
      intro d m hne hpm hd
      rcases hnum with hn | hn | hn
      · rw [hn] at hpm
        cases hpm
      · exact hne (h.distinct hd (hn ▸ hpm))
      · rw [hn] at hpm
        cases hpm
        exact Nat.lt_irrefl _ ((h.fits d).number_lt hd)
    intro d e m hd he
    rw [hmove] at hd he
    rcases eq_or_ne d c with rfl | hdc <;> rcases eq_or_ne e d with rfl | hed
    · rfl
    · rw [Function.update_self] at hd
      rw [Function.update_of_ne hed] at he
      exact absurd he (hother hed hd)
    · rfl
    · rw [Function.update_of_ne hdc] at hd
      rcases eq_or_ne e c with rfl | hec
      · rw [Function.update_self] at he
        exact absurd hd (hother hdc he)
      · rw [Function.update_of_ne hec] at he
        exact h.distinct hd he

/-! ## Every move keeps a record -/

variable {c : κ} {o m : Nat}

/-- Whoever gives up what it has read, or reads again, disturbs no record. -/
theorem Sound.move {p : Claimant} (h : Sound s) (hnum : p.number? = none)
    (hp : ∀ fate, s.Fits fate p) : Sound (s.move c p) := by
  obtain ⟨fate, h⟩ := h
  exact ⟨fate, h.of_move rfl (.inl hnum) (Nat.le_refl _) (Nat.le_refl _) (fun _ _ => rfl)
    (fun _ => Nat.le_refl _) ((hp fate).mono (Nat.le_refl _) (Nat.le_refl _) (fun _ _ => rfl)
    fun _ => Nat.le_refl _) h.head_eq h.overcommit_eq h.served h.fresh⟩

theorem Sound.look (h : Sound s) : Sound (s.look c) := h.move rfl fun _ => Nat.le_refl _

theorem Sound.draw (h : Sound s) (hc : s.claimant c = .looked o) : Sound (s.draw c o) := by
  obtain ⟨fate, h⟩ := h
  have hopen := h.fresh (Nat.le_refl s.optimistic)
  have hread := h.fits c
  rw [hc] at hread
  refine ⟨fate, h.of_move rfl (.inr (.inr rfl)) (Nat.le_refl _) (Nat.le_succ _) (fun _ _ => rfl)
    (fun _ => Nat.le_refl _) ⟨Nat.lt_succ_self _, hopen, ?_⟩ ?_ ?_ h.served ?_⟩
  · exact Nat.le_trans hread (Nat.le_of_eq h.overcommit_eq)
  · exact h.head_eq.trans (tally_succ_of_ne (by rw [hopen]; decide)).symm
  · exact h.overcommit_eq.trans (tally_succ_of_ne (by rw [hopen]; decide)).symm
  · intro k hk
    exact h.fresh (Nat.le_of_succ_le hk)

theorem Sound.enrol (h : Sound s) (hc : s.claimant c = .drawn o m) (hm : m < o + s.tail) :
    Sound (s.enrol c m) := by
  obtain ⟨fate, h⟩ := h
  have hfits := h.fits c
  rw [hc] at hfits
  obtain ⟨hlt, hopen, hle⟩ := hfits
  have hlost : ∀ n, tally (Function.update fate m .admitted) .lost n = tally fate .lost n :=
    fun n => tally_update_of_ne (by rw [hopen]; decide) (by decide)
  refine ⟨Function.update fate m .admitted, h.of_move rfl (.inr (.inl ?_)) (Nat.le_refl _)
    (Nat.le_refl _) ?_ ?_ ⟨hlt, Function.update_self ..⟩ ?_ ?_ ?_ ?_⟩
  · rw [hc]; rfl
  · intro k hk
    rw [hc] at hk
    exact Function.update_of_ne (fun e => hk (congrArg some e.symm)) ..
  · intro n
    exact Nat.le_of_eq (hlost n).symm
  · exact h.head_eq.trans (tally_update_of_ne (by rw [hopen]; decide) (by decide)).symm
  · exact h.overcommit_eq.trans (hlost _).symm
  · intro k hk
    rw [hlost]
    rcases eq_or_ne k m with rfl | hne
    · exact Nat.lt_of_lt_of_le hm (Nat.add_le_add_right hle _)
    · rw [Function.update_of_ne hne] at hk
      exact h.served hk
  · intro k hk
    rw [Function.update_of_ne (Nat.ne_of_gt (Nat.lt_of_lt_of_le hlt hk))]
    exact h.fresh hk

theorem Sound.refuse (h : Sound s) (hc : s.claimant c = .drawn o m) : Sound (s.refuse c m) := by
  obtain ⟨fate, h⟩ := h
  have hfits := h.fits c
  rw [hc] at hfits
  refine ⟨fate, h.of_move rfl (.inr (.inl ?_)) (Nat.le_refl _) (Nat.le_refl _) (fun _ _ => rfl)
    (fun _ => Nat.le_refl _) ⟨hfits.1, hfits.2.1⟩ h.head_eq h.overcommit_eq h.served h.fresh⟩
  rw [hc]; rfl

theorem Sound.claim (h : Sound s) (hc : s.claimant c = .admitted m) : Sound (s.claim c) := by
  obtain ⟨fate, h⟩ := h
  have hfits := h.fits c
  rw [hc] at hfits
  obtain ⟨hlt, hadm⟩ := hfits
  have hlost : ∀ n, tally (Function.update fate m .won) .lost n = tally fate .lost n :=
    fun n => tally_update_of_ne (by rw [hadm]; decide) (by decide)
  refine ⟨Function.update fate m .won, h.of_move rfl (.inl rfl) (Nat.le_refl _) (Nat.le_refl _)
    ?_ (fun n => Nat.le_of_eq (hlost n).symm) trivial ?_ ?_ ?_ ?_⟩
  · intro k hk
    rw [hc] at hk
    exact Function.update_of_ne (fun e => hk (congrArg some e.symm)) ..
  · refine (congrArg (· + 1) h.head_eq).trans ?_
    exact (tally_update_self hlt (by rw [hadm]; decide)).symm
  · exact h.overcommit_eq.trans (hlost _).symm
  · intro k hk
    rw [hlost]
    rcases eq_or_ne k m with rfl | hne
    · exact h.served (.inl hadm)
    · rw [Function.update_of_ne hne] at hk
      exact h.served hk
  · intro k hk
    rw [Function.update_of_ne (Nat.ne_of_gt (Nat.lt_of_lt_of_le hlt hk))]
    exact h.fresh hk

theorem Sound.yield (h : Sound s) (hc : s.claimant c = .refused m) : Sound (s.yield c) := by
  obtain ⟨fate, h⟩ := h
  have hfits := h.fits c
  rw [hc] at hfits
  obtain ⟨hlt, hopen⟩ := hfits
  have hnot : fate m ≠ .lost := by
    rw [hopen]
    decide
  have hlost : ∀ n, tally fate .lost n ≤ tally (Function.update fate m .lost) .lost n := by
    intro n
    rcases Nat.lt_or_ge m n with hn | hn
    · exact (tally_update_self hn hnot).symm ▸ Nat.le_succ _
    · exact Nat.le_of_eq (tally_update_of_le hn).symm
  refine ⟨Function.update fate m .lost, h.of_move rfl (.inl rfl) (Nat.le_succ _) (Nat.le_refl _)
    ?_ hlost trivial ?_ ?_ ?_ ?_⟩
  · intro k hk
    rw [hc] at hk
    exact Function.update_of_ne (fun e => hk (congrArg some e.symm)) ..
  · exact h.head_eq.trans (tally_update_of_ne (by rw [hopen]; decide) (by decide)).symm
  · refine (congrArg (· + 1) h.overcommit_eq).trans ?_
    exact (tally_update_self hlt hnot).symm
  · intro k hk
    rcases eq_or_ne k m with rfl | hne
    · rw [Function.update_self] at hk
      rcases hk with hk | hk <;> cases hk
    · rw [Function.update_of_ne hne] at hk
      exact Nat.lt_of_lt_of_le (h.served hk) (Nat.add_le_add_right (hlost k) _)
  · intro k hk
    rw [Function.update_of_ne (Nat.ne_of_gt (Nat.lt_of_lt_of_le hlt hk))]
    exact h.fresh hk

end Claims
