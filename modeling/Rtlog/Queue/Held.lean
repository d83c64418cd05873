/-
# `Rtlog.Queue.Held` — what is marked as in hand is in hand

A view marks an element as claimed or taken by a consumer, and a block as drained
by one.  `Good` says that what a thread has in hand is marked so; here is the other
half, that there is a thread to every mark:

    mark         place of the consumer
    claimed c    loadIndexTail .. take
    taken c      setEmpty
    drained c    clearValue

and that a consumer has one thing in hand at a time.  It follows that when no
consumer is at work every element that was claimed is gone, and every block that was
passed is freed.
-/
import Rtlog.Queue.Emptying
import Rtlog.Queue.Enqueuing

namespace Rtlog.Queue

variable {ι κ α : Type}

/-- What a consumer has in hand. -/
inductive Stage where
  | none
  | claimed
  | taken
  | drained
  deriving DecidableEq

def Dequeue.stage : Dequeue ι α → Stage
  | .loadIndexTail .. | .loadKey .. | .loadValue .. | .take .. => .claimed
  | .setEmpty .. => .taken
  | .clearValue .. => .drained
  | _ => .none

/-- The mark of consumer `c` for `stage` is on element, or block, `n`. -/
def SubQueue.Marked (s : SubQueue κ α) (c : κ) (n : Nat) : Stage → Prop
  | .none => False
  | .claimed => s.status n = .claimed c
  | .taken => s.status n = .taken c
  | .drained => s.phase n = .drained c

/-- There is a consumer to every mark, and one mark to every consumer. -/
def Held (v : View ι κ α) (q : ConcurrentQueue ι κ α) : Prop :=
  ∀ c stage i n, (v.subQueue i).Marked c n stage → (q.deq c).stage = stage ∧
    ∀ j m, (v.subQueue j).Marked c m stage → j = i ∧ m = n

variable {v v' : View ι κ α} {q q' : ConcurrentQueue ι κ α} {i : ι} {c : κ}

/-- Neither marks nor threads have changed. -/
theorem Held.stay (h : Held v q) (hdeq : ∀ c, (q'.deq c).stage = (q.deq c).stage)
    (hmarks : ∀ c stage i n, (v'.subQueue i).Marked c n stage → (v.subQueue i).Marked c n stage) :
    Held v' q' := by
  intro c stage i n hn
  obtain ⟨hstage, huniq⟩ := h c stage i n (hmarks c stage i n hn)
  exact ⟨(hdeq c).trans hstage, fun j m hm => huniq j m (hmarks c stage j m hm)⟩

/-- Consumer `c` has gone on, and its one mark with it. -/
theorem Held.move {stage : Stage} {n : Nat} (h : Held v q)
    (hdeq : ∀ e, e ≠ c → (q'.deq e).stage = (q.deq e).stage) (hc : (q'.deq c).stage = stage)
    (hmarks : ∀ e st j m, e ≠ c → (v'.subQueue j).Marked e m st → (v.subQueue j).Marked e m st)
    (hself : ∀ st j m, (v'.subQueue j).Marked c m st → st = stage ∧ j = i ∧ m = n) :
    Held v' q' := by
  intro e st j m hm
  by_cases heq : e = c
  · subst heq
    obtain ⟨rfl, rfl, rfl⟩ := hself st j m hm
    exact ⟨hc, fun j' m' hm' => (hself st j' m' hm').2⟩
  · obtain ⟨hstage, huniq⟩ := h e st j m (hmarks e st j m heq hm)
    exact ⟨(hdeq e heq).trans hstage, fun j' m' hm' => huniq j' m' (hmarks e st j' m' heq hm')⟩

theorem Held.initial (h : ∀ i n, (v.subQueue i).status n = .queued)
    (h' : ∀ i n, (v.subQueue i).phase n = .inUse) : Held v q := by
  intro c stage i n hn
  cases stage with
  | none => exact hn.elim
  | claimed => rw [SubQueue.Marked, h] at hn; cases hn
  | taken => rw [SubQueue.Marked, h] at hn; cases hn
  | drained => rw [SubQueue.Marked, h'] at hn; cases hn

/-! ## What a consumer has in hand -/

/-- A consumer that is not at work has left no mark. -/
theorem Held.not_marked (h : Held v q) (hc : (q.deq c).stage = .none) (i : ι) (n : Nat)
    (stage : Stage) : ¬ (v.subQueue i).Marked c n stage := by
  intro hn
  have hstage := (h c stage i n hn).1
  rw [hc] at hstage
  subst hstage
  exact hn

/-- All marks of a consumer are on the same thing. -/
theorem Held.eq_of_marked (h : Held v q) {stage stage' : Stage} {j : ι} {n m : Nat}
    (hn : (v.subQueue i).Marked c n stage) (hm : (v.subQueue j).Marked c m stage') :
    stage' = stage ∧ j = i ∧ m = n := by
  obtain ⟨hstage, huniq⟩ := h c stage i n hn
  obtain rfl : stage' = stage := (h c stage' j m hm).1.symm.trans hstage
  exact ⟨rfl, huniq j m hm⟩

section Steps

variable [DecidableEq ι] [DecidableEq κ] {s : SubQueue κ α} {d : Dequeue ι α}

omit [DecidableEq κ] in
theorem Held.stay_update (h : Held v q) (hsub : v'.subQueue = Function.update v.subQueue i s)
    (hdeq : ∀ c, (q'.deq c).stage = (q.deq c).stage)
    (hmarks : ∀ c stage n, s.Marked c n stage → (v.subQueue i).Marked c n stage) :
    Held v' q' := by
  refine h.stay hdeq fun c stage j n hn => ?_
  rw [hsub] at hn
  rcases eq_or_ne j i with rfl | hne
  · rw [Function.update_self] at hn
    exact hmarks c stage n hn
  · rw [Function.update_of_ne hne] at hn
    exact hn

omit [DecidableEq ι] in
/-- A consumer goes on with the same in hand. -/
theorem Held.goto (h : Held v q) (hdeq : q'.deq = Function.update q.deq c d)
    (hd : d.stage = (q.deq c).stage)
    (hmarks : ∀ c stage i n, (v'.subQueue i).Marked c n stage → (v.subQueue i).Marked c n stage) :
    Held v' q' := by
  refine h.stay (fun e => ?_) hmarks
  rw [hdeq]
  rcases eq_or_ne e c with rfl | hne
  · rw [Function.update_self, hd]
  · rw [Function.update_of_ne hne]

omit [DecidableEq κ] in
theorem View.marked_recount {claims : Claims κ} {e : κ} {stage : Stage} {j : ι} {n : Nat}
    (h : ((v.recount i claims).subQueue j).Marked e n stage) :
    (v.subQueue j).Marked e n stage := by
  rcases eq_or_ne j i with rfl | hne
  · simp only [View.recount, Function.update_self] at h
    cases stage <;> exact h
  · simp only [View.recount, Function.update_of_ne hne] at h
    exact h

/-- Consumer `c` changes the marks of one producer, and has had none of another. -/
theorem Held.update {stage : Stage} {n : Nat} (h : Held v q)
    (hsub : v'.subQueue = Function.update v.subQueue i s)
    (hdeq : q'.deq = Function.update q.deq c d) (hd : d.stage = stage)
    (hmine : ∀ j m st, (v.subQueue j).Marked c m st → j = i)
    (hother : ∀ e m st, e ≠ c → s.Marked e m st → (v.subQueue i).Marked e m st)
    (hself : ∀ m st, s.Marked c m st → st = stage ∧ m = n) : Held v' q' := by
  have hc : (q'.deq c).stage = stage := by rw [hdeq, Function.update_self, hd]
  refine h.move (i := i) (n := n) (fun e hne => ?_) hc (fun e st j m hne hm => ?_)
    fun st j m hm => ?_
  · rw [hdeq, Function.update_of_ne hne]
  · rw [hsub] at hm
    rcases eq_or_ne j i with rfl | hji
    · rw [Function.update_self] at hm
      exact hother e m st hne hm
    · rw [Function.update_of_ne hji] at hm
      exact hm
  · rw [hsub] at hm
    rcases eq_or_ne j i with rfl | hji
    · rw [Function.update_self] at hm
      exact ⟨(hself m st hm).1, rfl, (hself m st hm).2⟩
    · rw [Function.update_of_ne hji] at hm
      exact absurd (hmine j m st hm) hji

omit [DecidableEq κ] [DecidableEq ι] in
/-- A new status is a new mark, or none; the others stay. -/
theorem SubQueue.marked_of_update {t : SubQueue κ α} {n m : Nat} {x : ItemStatus κ} {stage : Stage}
    (h : t.Marked c m stage) (hstatus : t.status = Function.update s.status n x)
    (hphase : t.phase = s.phase) :
    (s.Marked c m stage ∧ (m = n → stage = .drained)) ∨
      m = n ∧ (stage = .claimed ∧ x = .claimed c ∨ stage = .taken ∧ x = .taken c) := by
  cases stage with
  | none => exact h.elim
  | drained =>
      rw [SubQueue.Marked, hphase] at h
      exact .inl ⟨h, fun _ => rfl⟩
  | claimed =>
      rw [SubQueue.Marked, hstatus] at h
      rcases eq_or_ne m n with rfl | hne
      · rw [Function.update_self] at h
        exact .inr ⟨rfl, .inl ⟨rfl, h⟩⟩
      · rw [Function.update_of_ne hne] at h
        exact .inl ⟨h, fun heq => absurd heq hne⟩
  | taken =>
      rw [SubQueue.Marked, hstatus] at h
      rcases eq_or_ne m n with rfl | hne
      · rw [Function.update_self] at h
        exact .inr ⟨rfl, .inr ⟨rfl, h⟩⟩
      · rw [Function.update_of_ne hne] at h
        exact .inl ⟨h, fun heq => absurd heq hne⟩

omit [DecidableEq ι] [DecidableEq κ] in
/-- A block that is now in phase `x`. -/
theorem SubQueue.marked_of_update_phase {t : SubQueue κ α} {k m : Nat} {x : Phase κ} {stage : Stage}
    (h : t.Marked c m stage) (hstatus : t.status = s.status)
    (hphase : t.phase = Function.update s.phase k x) :
    (s.Marked c m stage ∧ (stage = .drained → m ≠ k)) ∨
      stage = .drained ∧ m = k ∧ x = .drained c := by
  cases stage with
  | none => exact h.elim
  | claimed =>
      rw [SubQueue.Marked, hstatus] at h
      exact .inl ⟨h, nofun⟩
  | taken =>
      rw [SubQueue.Marked, hstatus] at h
      exact .inl ⟨h, nofun⟩
  | drained =>
      rw [SubQueue.Marked, hphase] at h
      rcases eq_or_ne m k with rfl | hne
      · rw [Function.update_self] at h
        exact .inr ⟨rfl, rfl, h⟩
      · rw [Function.update_of_ne hne] at h
        exact .inl ⟨h, fun _ => hne⟩

omit [DecidableEq κ] in
theorem Held.publish {b : BlockId} (h : Held v q) (hdeq : q'.deq = q.deq) :
    Held (v.publish i b) q' := by
  refine h.stay_update (i := i) rfl (fun e => by rw [hdeq]) fun e stage m hm => ?_
  rcases SubQueue.marked_of_update_phase (s := v.subQueue i) hm rfl rfl with hm | ⟨-, -, hx⟩
  · exact hm.1
  · cases hx

theorem Held.claim (h : Held v q) (hc : (q.deq c).stage = .none) (hd : d.stage = .claimed)
    (hdeq : q'.deq = Function.update q.deq c d) : Held (v.claim i c) q' := by
  have hnot := h.not_marked hc
  refine h.update (i := i) (n := (v.subQueue i).claims.head) rfl hdeq hd
    (fun j m st hm => absurd hm (hnot j m st)) (fun e m st hne hm => ?_) fun m st hm => ?_
  · rcases SubQueue.marked_of_update (s := v.subQueue i) hm rfl rfl with hm | ⟨-, ⟨-, hx⟩ | ⟨-, hx⟩⟩
    · exact hm.1
    · exact absurd (ItemStatus.claimed.inj hx).symm hne
    · cases hx
  · rcases SubQueue.marked_of_update (s := v.subQueue i) hm rfl rfl with
      hm | ⟨heq, ⟨hst, -⟩ | ⟨-, hx⟩⟩
    · exact absurd hm.1 (hnot i m st)
    · exact ⟨hst, heq⟩
    · cases hx

theorem Held.take {n : Nat} (h : Held v q) (hn : (v.subQueue i).status n = .claimed c)
    (hd : d.stage = .taken) (hdeq : q'.deq = Function.update q.deq c d) :
    Held (v.mark i n (.taken c)) q' := by
  have hmark : (v.subQueue i).Marked c n .claimed := hn
  refine h.update (i := i) (n := n) rfl hdeq hd (fun j m st hm => (h.eq_of_marked hmark hm).2.1)
    (fun e m st hne hm => ?_) fun m st hm => ?_
  · rcases SubQueue.marked_of_update (s := v.subQueue i) hm rfl rfl with hm | ⟨-, ⟨-, hx⟩ | ⟨-, hx⟩⟩
    · exact hm.1
    · cases hx
    · exact absurd (ItemStatus.taken.inj hx).symm hne
  · rcases SubQueue.marked_of_update (s := v.subQueue i) hm rfl rfl with
      ⟨hm, hmn⟩ | ⟨heq, ⟨-, hx⟩ | ⟨hst, -⟩⟩
    · obtain ⟨hst, -, heq⟩ := h.eq_of_marked hmark hm
      rw [hmn heq] at hst
      cases hst
    · cases hx
    · exact ⟨hst, heq⟩

theorem Held.setEmpty {n : Nat} (h : Held v q) (hn : (v.subQueue i).status n = .taken c)
    (hd : d.stage = .none) (hdeq : q'.deq = Function.update q.deq c d) :
    Held (v.setEmpty i n c false) q' := by
  have hmark : (v.subQueue i).Marked c n .taken := hn
  have hold : ∀ e m st, { v.subQueue i with
      status := Function.update (v.subQueue i).status n .gone }.Marked e m st →
      (v.subQueue i).Marked e m st ∧ (m = n → st = .drained) := by
    intro e m st hm
    rcases SubQueue.marked_of_update (s := v.subQueue i) hm rfl rfl with hm | ⟨-, ⟨-, hx⟩ | ⟨-, hx⟩⟩
    · exact hm
    · cases hx
    · cases hx
  refine h.update (i := i) (n := n) rfl hdeq hd
    (fun j m st (hm : (v.subQueue j).Marked c m st) => (h.eq_of_marked hmark hm).2.1)
    (fun e m st _ hm => (hold e m st hm).1) fun m st hm => ?_
  obtain ⟨hm, hmn⟩ := hold c m st hm
  obtain ⟨hst, -, heq⟩ := h.eq_of_marked hmark hm
  rw [hmn heq] at hst
  cases hst

theorem Held.drain {n : Nat} (h : Held v q) (hn : (v.subQueue i).status n = .taken c)
    (hd : d.stage = .drained) (hdeq : q'.deq = Function.update q.deq c d) :
    Held (v.setEmpty i n c true) q' := by
  have hmark : (v.subQueue i).Marked c n .taken := hn
  have hold : ∀ e m st, { v.subQueue i with
      status := Function.update (v.subQueue i).status n .gone
      phase := Function.update (v.subQueue i).phase (n / 32) (.drained c) }.Marked e m st →
      (v.subQueue i).Marked e m st ∧ (m = n → st = .drained) ∨
        e = c ∧ st = .drained ∧ m = n / 32 := by
    intro e m st hm
    rcases SubQueue.marked_of_update_phase (s := { v.subQueue i with
      status := Function.update (v.subQueue i).status n .gone }) hm rfl rfl with hm | ⟨hst, hm, hx⟩
    · rcases SubQueue.marked_of_update (s := v.subQueue i) hm.1 rfl rfl with
        hm | ⟨-, ⟨-, hx⟩ | ⟨-, hx⟩⟩
      · exact .inl hm
      · cases hx
      · cases hx
    · exact .inr ⟨(Phase.drained.inj hx).symm, hst, hm⟩
  refine h.update (i := i) (n := n / 32) rfl hdeq hd
    (fun j m st (hm : (v.subQueue j).Marked c m st) => (h.eq_of_marked hmark hm).2.1)
    (fun e m st hne hm => ?_) fun m st hm => ?_
  · rcases hold e m st hm with hm | ⟨hec, -⟩
    · exact hm.1
    · exact absurd hec hne
  · rcases hold c m st hm with ⟨hm, hmn⟩ | ⟨-, hst, hm⟩
    · obtain ⟨hst, -, heq⟩ := h.eq_of_marked hmark hm
      rw [hmn heq] at hst
      cases hst
    · exact ⟨hst, hm⟩

theorem Held.retire {k : Nat} (h : Held v q) (hk : (v.subQueue i).phase k = .drained c)
    (hd : d.stage = .none) (hdeq : q'.deq = Function.update q.deq c d) :
    Held (v.retire i k c) q' := by
  have hmark : (v.subQueue i).Marked c k .drained := hk
  have hold : ∀ e m st, { v.subQueue i with
      phase := Function.update (v.subQueue i).phase k .freed }.Marked e m st →
      (v.subQueue i).Marked e m st ∧ (st = .drained → m ≠ k) := by
    intro e m st hm
    rcases SubQueue.marked_of_update_phase (s := v.subQueue i) hm rfl rfl with hm | ⟨-, -, hx⟩
    · exact hm
    · cases hx
  refine h.update (i := i) (n := k) rfl hdeq hd
    (fun j m st (hm : (v.subQueue j).Marked c m st) => (h.eq_of_marked hmark hm).2.1)
    (fun e m st _ hm => (hold e m st hm).1) fun m st hm => ?_
  obtain ⟨hm, hmk⟩ := hold c m st hm
  obtain ⟨hst, -, heq⟩ := h.eq_of_marked hmark hm
  exact absurd heq (hmk hst)

end Steps

end Rtlog.Queue
