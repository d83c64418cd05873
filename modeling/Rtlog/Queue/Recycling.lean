/-
# `Rtlog.Queue.Recycling` — the queue, with the free list's own code

In `Rtlog.Queue.Machine` a call of the free list is one step, and the free list a bag.  Here
it is the `FreeList` of `concurrentqueue.h`, and the threads interleave inside it too: a
thread that is at `freeList.try_get()` in `enqueue`, or at `freeList.add()` in `dequeue`, goes
through the operations of `Rtlog.Queue.FreeList` until the call returns.

    this machine                            the queue with the bag
      the step with which try_get returns     tryGet i got
      the step with which add returns         dequeue c, at addFree
      other steps inside the two              none
      every other step                        the same

A block is in the bag from the moment `add` returns for it until `try_get` does (`InBag`).
That `add` has put it on the list by then is not always so: another thread that holds the
block may be left to do it.  But while `add` goes on nobody can get the block, and when
`try_get` has taken it off nobody else can.
-/
import Rtlog.Queue.FreeListBag
import Rtlog.Queue.Serial

namespace Rtlog.FreeList

variable {τ ν : Type}

/-! ## The free list, from outside -/

/-- A thread is in no call. -/
def Place.outside : Place ν → Bool
  | .idle _ => true
  | _ => false

/-- A thread is inside `add`, after its first operation, for node `n`. -/
def Place.Adds (n : ν) : Place ν → Prop
  | .addLoad m none | .addNext m _ none | .addRefs m _ none | .addSwap m _ none
  | .addDrop m _ none => m = n
  | _ => False

theorem Place.node_of_adds {n : ν} {p : Place ν} (h : p.Adds n) : p.node? = some n := by
  unfold Place.Adds at h
  split at h
  all_goals first
    | exact congrArg some h
    | exact h.elim

theorem Place.node_of_outside {p : Place ν} (h : p.outside = true) : p.node? = none := by
  cases p with
  | idle last => rfl
  | _ => cases h

/-- The last `try_get` of a thread has returned node `n`. -/
def Place.returns (n : ν) : Place ν → Prop
  | .idle (some (some m)) => m = n
  | _ => False

theorem Place.not_returns_loop (head : Option ν) (n : ν) : ¬ (Place.loop head).returns n := by
  cases head <;> exact id

theorem Place.not_returns_resume (r : Option (Option ν)) (n : ν) :
    ¬ (Place.resume r).returns n := by
  cases r with
  | none => exact id
  | some head => exact Place.not_returns_loop head n

/-- The thread that makes a step. -/
def Action.thread : Action τ ν → τ
  | .add t _ | .tryGet t | .next t => t

variable [DecidableEq τ] [DecidableEq ν] {s s' : State τ ν} {t u : τ} {n : ν}

/-- A step moves one thread. -/
theorem step_place {act : Action τ ν} (hs : step s act = some s') (hu : u ≠ act.thread) :
    s'.place u = s.place u := by
  have hgoto : ∀ (x : State τ ν) (p : Place ν), x.place = s.place →
      (x.goto act.thread p).place u = s.place u := by
    intro x p hx
    simp only [State.goto, Function.update_of_ne hu, hx]
  cases act with
  | add t n =>
      simp only [step, addStep] at hs
      split at hs
      · split at hs <;> cases hs
        exact hgoto _ _ rfl
      · cases hs
  | tryGet t =>
      simp only [step] at hs
      split at hs <;> cases hs
      exact hgoto _ _ rfl
  | next t =>
      simp only [step, nextStep] at hs
      split at hs
      case h_1 => cases hs
      case h_4 | h_6 | h_12 =>
        split at hs <;> cases hs <;> exact hgoto _ _ rfl
      all_goals
        cases hs
        exact hgoto _ _ rfl

/-- Only the last operation of `try_get` hands a node over. -/
theorem next_out (hs : nextStep s t = some s') :
    s'.out = s.out ∧ (∀ n, ¬ (s'.place t).returns n) ∨
      ∃ n, s.place t = .getTake n ∧ s'.out = Function.update s.out n true ∧
        s'.place t = .idle (some (some n)) := by
  have hgoto : ∀ (x : State τ ν) (p : Place ν), x.out = s.out → (∀ n, ¬ p.returns n) →
      (x.goto t p).out = s.out ∧ ∀ n, ¬ ((x.goto t p).place t).returns n := by
    intro x p hx hp
    refine ⟨hx, fun n => ?_⟩
    simp only [State.goto, Function.update_self]
    exact hp n
  unfold nextStep at hs
  cases hp : s.place t with
  | idle last => simp [hp] at hs
  | getTake n =>
      simp only [hp, Option.some.injEq] at hs
      subst hs
      exact .inr ⟨n, rfl, rfl, Function.update_self ..⟩
  | getLoad =>
      simp only [hp, Option.some.injEq] at hs
      subst hs
      exact .inl (hgoto _ _ rfl (Place.not_returns_loop _))
  | getRefs n =>
      simp only [hp, Option.some.injEq] at hs
      subst hs
      refine .inl (hgoto _ _ rfl ?_)
      split <;> exact fun _ => id
  | getDrop n head =>
      simp only [hp, Option.some.injEq] at hs
      subst hs
      refine .inl (hgoto _ _ rfl ?_)
      split
      · exact fun _ => id
      · exact Place.not_returns_loop _
  | addDrop n head r =>
      simp only [hp, Option.some.injEq] at hs
      subst hs
      refine .inl (hgoto _ _ rfl ?_)
      split
      · exact fun _ => id
      · exact Place.not_returns_resume _
  | getHold n refs | getSwap n link =>
      simp only [hp] at hs
      split at hs <;> cases hs <;> exact .inl (hgoto _ _ rfl fun _ => id)
  | addSwap n head r =>
      simp only [hp] at hs
      split at hs <;> cases hs
      · exact .inl (hgoto _ _ rfl (Place.not_returns_resume r))
      · exact .inl (hgoto _ _ rfl fun _ => id)
  | _ =>
      simp only [hp, Option.some.injEq] at hs
      subst hs
      exact .inl (hgoto _ _ rfl fun _ => id)

/-- A thread stays inside `add` until it returns. -/
theorem next_adds (hp : (s.place t).Adds n) (hs : nextStep s t = some s') :
    s'.out = s.out ∧ ((s'.place t).Adds n ∨ (s'.place t).outside = true) := by
  have hgoto : ∀ (x : State τ ν) (p : Place ν), x.out = s.out → p.Adds n ∨ p.outside = true →
      (x.goto t p).out = s.out ∧
        (((x.goto t p).place t).Adds n ∨ ((x.goto t p).place t).outside = true) := by
    intro x p hx hp
    refine ⟨hx, ?_⟩
    simp only [State.goto, Function.update_self]
    exact hp
  unfold Place.Adds at hp
  unfold nextStep at hs
  split at hp
  all_goals first
    | exact hp.elim
    | (rename_i hplace; subst hp)
  case h_4 =>
    simp only [hplace] at hs
    split at hs <;> cases hs
    · exact hgoto _ _ rfl (.inr rfl)
    · exact hgoto _ _ rfl (.inl rfl)
  case h_5 =>
    simp only [hplace, Option.some.injEq] at hs
    refine hs ▸ hgoto _ _ rfl ?_
    split
    · exact .inl rfl
    · exact .inr rfl
  all_goals
    simp only [hplace, Option.some.injEq] at hs
    exact hs ▸ hgoto _ _ rfl (.inl rfl)

/-- A thread inside a call is not blocked. -/
theorem next_isSome (hp : (s.place t).outside = false) : (nextStep s t).isSome = true := by
  unfold nextStep
  cases hplace : s.place t with
  | idle last =>
      rw [hplace] at hp
      cases hp
  | getHold | getSwap | addSwap =>
      simp only
      split <;> rfl
  | _ => rfl

section Good

variable [Fintype τ] {g : Ghost τ ν}

omit [DecidableEq τ] in
/-- The node of a thread is its own ... -/
theorem Good.owner_eq (h : Good g s) (hn : (s.place t).node? = some n) :
    (g.status n).owner? = some t := by
  have hok := h.place t
  cases hp : s.place t with
  | getTake =>
      rw [hp] at hok hn
      cases hn
      exact congrArg Status.owner? hok
  | addLoad | addNext | addDrop =>
      rw [hp] at hok hn
      cases hn
      exact congrArg Status.owner? hok
  | addRefs | addSwap =>
      rw [hp] at hok hn
      cases hn
      exact congrArg Status.owner? hok.1
  | _ =>
      rw [hp] at hn
      cases hn

omit [DecidableEq τ] in
theorem Good.node_unique (h : Good g s) (ht : (s.place t).node? = some n)
    (hu : (s.place u).node? = some n) : t = u :=
  Option.some.inj ((h.owner_eq ht).symm.trans (h.owner_eq hu))

omit [DecidableEq τ] in
/-- ... and with no caller. -/
theorem Good.node_out (h : Good g s) (hn : (s.place t).node? = some n) : s.out n = false := by
  refine Bool.eq_false_iff.mpr fun hout => ?_
  have hown := h.owner_eq hn
  rw [(h.out n).mp hout] at hown
  cases hown

end Good

end Rtlog.FreeList

namespace Rtlog.Queue

variable {ι κ α : Type}

/-! ## The machine -/

/-- The thread of producer `i` is `.inl i` in the free list, and consumer `c` is `.inr c`. -/
structure Recycling (ι κ α : Type) where
  /-- Its own `freeList` is not used. -/
  queue : ConcurrentQueue ι κ α
  freeList : FreeList.State (ι ⊕ κ) BlockId

namespace Recycling

variable [DecidableEq ι] [DecidableEq κ]

/-- Every block is with a caller: in the pool. -/
def initial (blockCount : Nat) (blockIndex : ι → Bool) (value : ι → Size → Option BlockId) :
    Recycling ι κ α := ⟨.initial blockCount blockIndex value, FreeList.initial⟩

/-- Inside `freeList.try_get()`, of which the call is a step of its own, and what `enqueue`
does when it returns. -/
def tryGetStep (s : Recycling ι κ α) (i : ι) (a : α) (entry : Size) : Option (Recycling ι κ α) :=
  let act := if (s.freeList.place (.inl i)).outside then .tryGet (.inl i) else .next (.inl i)
  (FreeList.step s.freeList act).map fun list =>
    ⟨match list.place (.inl i) with
      | .idle (some none) => s.queue.setEnq i (.rewind entry)
      | .idle (some (some b)) => s.queue.setEnq i (.resetEmpty a entry b)
      | _ => s.queue, list⟩

/-- Inside `freeList.add(block)`, with which `dequeue` ends. -/
def addFreeStep (s : Recycling ι κ α) (c : κ) (b : BlockId) (a : α) :
    Option (Recycling ι κ α) :=
  let act := if (s.freeList.place (.inr c)).outside then .add (.inr c) b else .next (.inr c)
  (FreeList.step s.freeList act).map fun list =>
    ⟨if (list.place (.inr c)).outside then s.queue.setDeq c (.idle (some (some a)))
      else s.queue, list⟩

def step (s : Recycling ι κ α) : Action ι κ α → Option (Recycling ι κ α)
  | .tryEnqueue i a => (s.queue.step (.tryEnqueue i a)).map fun q => { s with queue := q }
  | .tryDequeue c i => (s.queue.step (.tryDequeue c i)).map fun q => { s with queue := q }
  | .enqueue i =>
      match s.queue.enq i with
      | .tryGet a entry => s.tryGetStep i a entry
      | _ => (s.queue.enqueueStep i).map fun q => { s with queue := q }
  | .dequeue c =>
      match s.queue.deq c with
      | .addFree b a => s.addFreeStep c b a
      | _ => (s.queue.dequeueStep c).map fun q => { s with queue := q }
  -- its steps are those of `enqueue`
  | .tryGet .. => none

def machine : Machine (Recycling ι κ α) (Action ι κ α) := ⟨step⟩

/-- What the callers see of a step. -/
def event (s : Recycling ι κ α) (act : Action ι κ α) (s' : Recycling ι κ α) :
    Option (LaneQueue.Event ι κ α) := Queue.event s.queue act s'.queue

end Recycling

/-! ## The queue with the bag -/

/-- The bag in place of the free list. -/
def ConcurrentQueue.withBag (q : ConcurrentQueue ι κ α) (bag : List BlockId) :
    ConcurrentQueue ι κ α := { q with freeList := bag }

variable {q q' : ConcurrentQueue ι κ α} {bag bag' : List BlockId} {act : Action ι κ α} {i : ι}
  {c : κ}

theorem event_withBag : event (q.withBag bag) act (q'.withBag bag') = event q act q' := by
  cases act <;> rfl

theorem ConcurrentQueue.enqueueStep_withBag [DecidableEq ι] (hs : q.enqueueStep i = some q') :
    (q.withBag bag).enqueueStep i = some (q'.withBag bag) := by
  cases he : q.enq i with
  | construct a =>
      cases hb : (q.producers i).tailBlock with
      | none =>
          simp only [enqueueStep, he, hb, Option.some.injEq] at hs
          simp only [withBag, enqueueStep, he, hb, ← hs]
          rfl
      | some b =>
          simp only [enqueueStep, he, hb, Option.some.injEq] at hs
          simp only [withBag, enqueueStep, he, hb, ← hs]
          rfl
  | idle | tryGet | undefined => simp [enqueueStep, he] at hs
  | _ =>
      simp only [enqueueStep, he, Option.some.injEq] at hs
      simp only [withBag, enqueueStep, he, ← hs]
      rfl

theorem ConcurrentQueue.dequeueStep_withBag [DecidableEq ι] [DecidableEq κ]
    (hs : q.dequeueStep c = some q') (hadd : ∀ b a, q.deq c ≠ .addFree b a) :
    (q.withBag bag).dequeueStep c = some (q'.withBag bag) := by
  cases hd : q.deq c with
  | addFree b a => exact absurd hd (hadd b a)
  | idle | undefined => simp [dequeueStep, hd] at hs
  | take i x s b =>
      cases ha : (q.blocks b).elements (pos x) with
      | none =>
          simp only [dequeueStep, hd, ha, Option.some.injEq] at hs
          simp only [withBag, dequeueStep, hd, ha, ← hs]
          rfl
      | some a =>
          simp only [dequeueStep, hd, ha, Option.some.injEq] at hs
          simp only [withBag, dequeueStep, hd, ha, ← hs]
          rfl
  | _ =>
      simp only [dequeueStep, hd, Option.some.injEq] at hs
      simp only [withBag, dequeueStep, hd, ← hs]
      rfl

theorem ConcurrentQueue.tryGet_withBag [DecidableEq ι] [DecidableEq κ] {a : α} {entry : Size}
    (he : q.enq i = .tryGet a entry) : (q.withBag bag).step (.tryGet i none) =
      some ((q.setEnq i (.rewind entry)).withBag bag) := by
  simp only [step, tryGetStep, withBag, he]
  rfl

theorem ConcurrentQueue.tryGet_withBag_mem [DecidableEq ι] [DecidableEq κ] {a : α} {entry : Size}
    {b : BlockId} (he : q.enq i = .tryGet a entry) (hb : b ∈ bag) :
    (q.withBag bag).step (.tryGet i (some b)) =
      some ((q.setEnq i (.resetEmpty a entry b)).withBag (bag.erase b)) := by
  simp only [step, tryGetStep, withBag, he]
  exact if_pos hb

theorem ConcurrentQueue.addFree_withBag [DecidableEq ι] [DecidableEq κ] {a : α} {b : BlockId}
    (hd : q.deq c = .addFree b a) : (q.withBag bag).step (.dequeue c) =
      some ((q.setDeq c (.idle (some (some a)))).withBag (b :: bag)) := by
  simp only [step, dequeueStep, withBag, hd]
  rfl

theorem Shows.of_withBag {t : LaneQueue ι κ α} (h : Shows t (q.withBag bag)) : Shows t q :=
  ⟨h.length, h.front, h.enq, h.deq⟩

/-- What does not use the free list does not see it. -/
theorem ConcurrentQueue.step_withBag [DecidableEq ι] [DecidableEq κ] (hs : q.step act = some q')
    (hadd : ∀ c b a, act = .dequeue c → q.deq c ≠ .addFree b a)
    (hget : ∀ i got, act ≠ .tryGet i got) :
    (q.withBag bag).step act = some (q'.withBag bag) := by
  cases act with
  | tryEnqueue i a =>
      cases he : q.enq i with
      | idle last =>
          simp only [step, he, Option.some.injEq] at hs
          simp only [withBag, step, he, ← hs]
          rfl
      | _ => simp [step, he] at hs
  | tryDequeue c i =>
      cases hd : q.deq c with
      | idle last =>
          simp only [step, hd, Option.some.injEq] at hs
          simp only [withBag, step, hd, ← hs]
          rfl
      | _ => simp [step, hd] at hs
  | enqueue i => exact enqueueStep_withBag hs
  | dequeue c => exact dequeueStep_withBag hs fun b a => hadd c b a rfl
  | tryGet i got => exact absurd rfl (hget i got)

/-- A consumer that is at the free list stays there while others move. -/
theorem ConcurrentQueue.deq_of_addFree [DecidableEq ι] [DecidableEq κ] {b : BlockId} {a : α}
    (hs : q.step act = some q') (hadd : ∀ c b a, act = .dequeue c → q.deq c ≠ .addFree b a)
    (hd : q.deq c = .addFree b a) : q'.deq c = .addFree b a := by
  have hcall : ∀ i, act ≠ .tryDequeue c i := by
    rintro i rfl
    simp [step, hd] at hs
  rcases step_deq hs hcall with ⟨hown, -⟩ | ⟨-, hsame⟩
  · cases act with
    | dequeue d =>
        obtain rfl : d = c := of_decide_eq_true hown
        exact absurd hd (hadd d b a rfl)
    | _ => cases hown
  · exact hsame.trans hd

namespace Recycling

variable [Fintype ι] [Fintype κ] {s s' : Recycling ι κ α} {b : BlockId} {a : α} {entry : Size}

/-- No caller has the block, and no `add` for it goes on. -/
def InBag (s : Recycling ι κ α) (b : BlockId) : Prop :=
  s.freeList.out b = false ∧ ∀ c, (s.freeList.place (.inr c)).node? ≠ some b

/-- The free list is one, a consumer is in it for the block it is at, and `bag` is the bag. -/
structure Bagged (s : Recycling ι κ α) (bag : List BlockId) : Prop where
  list : ∃ g, FreeList.Good g s.freeList
  adding : ∀ c, (s.freeList.place (.inr c)).outside = true ∨
    ∃ b a, s.queue.deq c = .addFree b a ∧ (s.freeList.place (.inr c)).Adds b
  mem : ∀ b, b ∈ bag ↔ s.InBag b
  nodup : bag.Nodup

theorem Bagged.initial (blockCount : Nat) (blockIndex : ι → Bool)
    (value : ι → Size → Option BlockId) :
    (initial blockCount blockIndex value : Recycling ι κ α).Bagged [] where
  list := ⟨_, .initial⟩
  adding _ := .inl rfl
  mem _ := iff_of_false List.not_mem_nil fun h => by cases h.1
  nodup := List.nodup_nil

theorem Bagged.adding_of {list : FreeList.State (ι ⊕ κ) BlockId} (h : s.Bagged bag)
    (hplace : list.place (.inr c) = s.freeList.place (.inr c)) (hdeq : q.deq c = s.queue.deq c) :
    (list.place (.inr c)).outside = true ∨
      ∃ b a, q.deq c = .addFree b a ∧ (list.place (.inr c)).Adds b := by
  rw [hplace, hdeq]
  exact h.adding c

/-- A step that the bag does not show. -/
theorem Bagged.keep {list : FreeList.State (ι ⊕ κ) BlockId} (h : s.Bagged bag)
    (hlist : ∃ g, FreeList.Good g list)
    (hplace : ∀ c, list.place (.inr c) = s.freeList.place (.inr c))
    (hout : list.out = s.freeList.out) (hdeq : q.deq = s.queue.deq) : Bagged ⟨q, list⟩ bag where
  list := hlist
  adding c := h.adding_of (hplace c) (congrFun hdeq c)
  mem b := by
    rw [h.mem b, InBag, InBag, hout]
    simp only [hplace]
  nodup := h.nodup

variable [DecidableEq ι] [DecidableEq κ]

/-- A step inside `try_get`. -/
theorem Bagged.tryGet (hfew : FreeList.Few (ι ⊕ κ)) (h : s.Bagged bag)
    (he : s.queue.enq i = .tryGet a entry) (hs : s.tryGetStep i a entry = some s') :
    s'.queue = s.queue ∧ s'.Bagged bag ∨ ∃ got bag',
      (s.queue.withBag bag).step (.tryGet i got) = some (s'.queue.withBag bag') ∧
        s'.Bagged bag' := by
  obtain ⟨g, hg⟩ := h.list
  obtain ⟨list, hlist, rfl⟩ := Option.map_eq_some_iff.mp hs
  obtain ⟨g', -, hg'⟩ := hg.step hfew hlist
  have hplace : ∀ c, list.place (.inr c) = s.freeList.place (.inr c) := fun c =>
    FreeList.step_place hlist (by split <;> simp [FreeList.Action.thread])
  have hkeep : list.out = s.freeList.out →
      ∀ q : ConcurrentQueue ι κ α, q.deq = s.queue.deq → Bagged ⟨q, list⟩ bag :=
    fun hout q hdeq => h.keep ⟨g', hg'⟩ hplace hout hdeq
  split at hlist
  · -- the call
    have hin : list.place (.inl i) = .getLoad ∧ list.out = s.freeList.out := by
      simp only [FreeList.step] at hlist
      split at hlist <;> cases hlist
      exact ⟨Function.update_self .., rfl⟩
    rw [hin.1]
    exact .inl ⟨rfl, hkeep hin.2 _ rfl⟩
  · rcases FreeList.next_out hlist with ⟨hout, hnot⟩ | ⟨b, htake, hout, hback⟩
    · cases hp : list.place (.inl i) with
      | idle last =>
          rcases last with - | - | b
          · exact .inl ⟨rfl, hkeep hout _ rfl⟩
          · exact .inr ⟨none, bag, ConcurrentQueue.tryGet_withBag he, hkeep hout _ rfl⟩
          · rw [hp] at hnot
            exact absurd rfl (hnot b)
      | _ => exact .inl ⟨rfl, hkeep hout _ rfl⟩
    · -- the block is nobody else's
      have hnode : (s.freeList.place (.inl i)).node? = some b := by
        rw [htake]
        rfl
      have hother : ∀ c, (s.freeList.place (.inr c)).node? ≠ some b := fun c hc => by
        cases hg.node_unique hnode hc
      have hmem : b ∈ bag := (h.mem b).mpr ⟨hg.node_out hnode, hother⟩
      rw [hback]
      refine .inr ⟨some b, bag.erase b, ConcurrentQueue.tryGet_withBag_mem he hmem, ⟨g', hg'⟩,
        fun c => h.adding_of (hplace c) rfl, fun x => ?_, h.nodup.erase b⟩
      rw [h.nodup.mem_erase_iff, h.mem x, InBag, InBag, hout]
      simp only [hplace]
      rcases eq_or_ne x b with rfl | hne
      · simp
      · simp [hne]

/-- What a step inside `add` changes. -/
structure Adding (s : Recycling ι κ α) (c : κ) (b : BlockId)
    (list : FreeList.State (ι ⊕ κ) BlockId) : Prop where
  other : ∀ d, d ≠ c → list.place (.inr d) = s.freeList.place (.inr d)
  out : ∀ x, x ≠ b → list.out x = s.freeList.out x
  out_self : list.out b = false
  node : ∀ x, x ≠ b → (s.freeList.place (.inr c)).node? ≠ some x
  alone : ∀ d, d ≠ c → (s.freeList.place (.inr d)).node? ≠ some b
  outside : ¬ s.InBag b
  place : (list.place (.inr c)).Adds b ∨ (list.place (.inr c)).outside = true

omit [Fintype ι] [Fintype κ] [DecidableEq ι] [DecidableEq κ] in
theorem Adding.node_ne {list : FreeList.State (ι ⊕ κ) BlockId} (h : s.Adding c b list)
    {x : BlockId} (hx : x ≠ b) : (list.place (.inr c)).node? ≠ some x := by
  intro hn
  rcases h.place with hadds | hout
  · rw [FreeList.Place.node_of_adds hadds] at hn
    exact hx (Option.some.inj hn).symm
  · rw [FreeList.Place.node_of_outside hout] at hn
    cases hn

omit [Fintype ι] [Fintype κ] [DecidableEq ι] [DecidableEq κ] in
/-- Other blocks are where they were. -/
theorem Adding.inBag_iff {list : FreeList.State (ι ⊕ κ) BlockId} (h : s.Adding c b list)
    {x : BlockId} (hx : x ≠ b) : InBag ⟨q, list⟩ x ↔ s.InBag x := by
  rw [InBag, InBag, h.out x hx]
  refine and_congr_right fun _ => forall_congr' fun d => ?_
  rcases eq_or_ne d c with rfl | hne
  · exact iff_of_true (h.node_ne hx) (h.node x hx)
  · rw [h.other d hne]

theorem Bagged.adding_step (h : s.Bagged bag) (hd : s.queue.deq c = .addFree b a)
    (hs : s.addFreeStep c b a = some s') : s.Adding c b s'.freeList := by
  obtain ⟨g, hg⟩ := h.list
  obtain ⟨list, hlist, rfl⟩ := Option.map_eq_some_iff.mp hs
  have hother : ∀ d, d ≠ c → list.place (.inr d) = s.freeList.place (.inr d) := fun d hne =>
    FreeList.step_place hlist (by split <;> simpa [FreeList.Action.thread] using hne)
  split at hlist
  · next hout =>
      -- the first operation: the block was with its caller
      simp only [FreeList.step, FreeList.addStep] at hlist
      split at hlist
      · split at hlist
        · next hb =>
            cases hlist
            exact {
              other := hother
              out := fun x hx => Function.update_of_ne hx ..
              out_self := Function.update_self ..
              node := fun x _ hn => by
                rw [FreeList.Place.node_of_outside hout] at hn
                cases hn
              alone := fun d _ hn => by
                cases (hg.node_out hn).symm.trans hb
              outside := fun hin => by
                cases hin.1.symm.trans hb
              place := by
                simp only [FreeList.State.goto, Function.update_self]
                split
                · exact .inl rfl
                · exact .inr rfl }
        · cases hlist
      · cases hlist
  · next hin =>
      obtain ⟨b', a', hd', hadds⟩ := (h.adding c).resolve_left hin
      cases hd.symm.trans hd'
      have hnode := FreeList.Place.node_of_adds hadds
      obtain ⟨hsame, hplace⟩ := FreeList.next_adds hadds hlist
      exact {
        other := hother
        out := fun x _ => congrFun hsame x
        out_self := (congrFun hsame b).trans (hg.node_out hnode)
        node := fun x hx hn => hx (Option.some.inj (hn.symm.trans hnode))
        alone := fun d hne hn => hne (Sum.inr.inj (hg.node_unique hn hnode))
        outside := fun hbag => hbag.2 c hnode
        place := hplace }

/-- A step inside `add`. -/
theorem Bagged.addFree (hfew : FreeList.Few (ι ⊕ κ)) (h : s.Bagged bag)
    (hd : s.queue.deq c = .addFree b a) (hs : s.addFreeStep c b a = some s') :
    s'.queue = s.queue ∧ s'.Bagged bag ∨
      s'.queue = s.queue.setDeq c (.idle (some (some a))) ∧ s'.Bagged (b :: bag) := by
  have hadd := h.adding_step hd hs
  obtain ⟨g, hg⟩ := h.list
  obtain ⟨list, hlist, rfl⟩ := Option.map_eq_some_iff.mp hs
  obtain ⟨g', -, hg'⟩ := hg.step hfew hlist
  have hnot : b ∉ bag := fun hb => hadd.outside ((h.mem b).mp hb)
  by_cases hout : (list.place (.inr c)).outside = true
  · -- `add` returns
    rw [if_pos hout]
    refine .inr ⟨rfl, ⟨g', hg'⟩, fun d => ?_, fun x => ?_, List.nodup_cons.mpr ⟨hnot, h.nodup⟩⟩
    · rcases eq_or_ne d c with rfl | hne
      · exact .inl hout
      · exact h.adding_of (hadd.other d hne) (Function.update_of_ne hne ..)
    · rcases eq_or_ne x b with rfl | hne
      · refine iff_of_true List.mem_cons_self ⟨hadd.out_self, fun d hn => ?_⟩
        rcases eq_or_ne d c with rfl | hne
        · rw [FreeList.Place.node_of_outside hout] at hn
          cases hn
        · rw [hadd.other d hne] at hn
          exact hadd.alone d hne hn
      · rw [List.mem_cons, or_iff_right hne, h.mem x]
        exact (hadd.inBag_iff hne).symm
  · rw [if_neg hout]
    have hadds := hadd.place.resolve_right hout
    refine .inl ⟨rfl, ⟨g', hg'⟩, fun d => ?_, fun x => ?_, h.nodup⟩
    · rcases eq_or_ne d c with rfl | hne
      · exact .inr ⟨b, a, hd, hadds⟩
      · exact h.adding_of (hadd.other d hne) rfl
    · rcases eq_or_ne x b with rfl | hne
      · exact iff_of_false hnot fun hin => hin.2 c (FreeList.Place.node_of_adds hadds)
      · rw [h.mem x]
        exact (hadd.inBag_iff hne).symm

/-! ## Whole runs -/

/-- What the queue with the bag does when `s` makes a step. -/
def Matched (s : Recycling ι κ α) (act : Action ι κ α) (s' : Recycling ι κ α)
    (bag : List BlockId) : Prop :=
  event s act s' = none ∧ s'.queue = s.queue ∧ s'.Bagged bag ∨
    ∃ act' bag', (s.queue.withBag bag).step act' = some (s'.queue.withBag bag') ∧
      event s act s' = Queue.event (s.queue.withBag bag) act' (s'.queue.withBag bag') ∧
      s'.Bagged bag'

/-- A step outside the free list. -/
theorem Bagged.pass (h : s.Bagged bag) (hs : s.queue.step act = some q)
    (hadd : ∀ c b a, act = .dequeue c → s.queue.deq c ≠ .addFree b a)
    (hget : ∀ i got, act ≠ .tryGet i got) : s.Matched act { s with queue := q } bag := by
  refine .inr ⟨act, bag, ConcurrentQueue.step_withBag hs hadd hget, event_withBag.symm, h.list,
    fun c => ?_, h.mem, h.nodup⟩
  rcases h.adding c with hout | ⟨b, a, hd, hadds⟩
  · exact .inl hout
  · exact .inr ⟨b, a, ConcurrentQueue.deq_of_addFree hs hadd hd, hadds⟩

theorem Bagged.step (hfew : FreeList.Few (ι ⊕ κ)) (h : s.Bagged bag)
    (hs : s.step act = some s') : s.Matched act s' bag := by
  cases act with
  | tryEnqueue i a =>
      obtain ⟨q, hq, rfl⟩ := Option.map_eq_some_iff.mp hs
      exact h.pass hq (by simp) (by simp)
  | tryDequeue c i =>
      obtain ⟨q, hq, rfl⟩ := Option.map_eq_some_iff.mp hs
      exact h.pass hq (by simp) (by simp)
  | enqueue i =>
      simp only [Recycling.step] at hs
      split at hs
      · next a entry he =>
          have hevent : event s (.enqueue i) s' = none := by
            simp only [event, Queue.event, he]
          rcases h.tryGet hfew he hs with ⟨hq, hbag⟩ | ⟨got, bag', hget, hbag⟩
          · exact .inl ⟨hevent, hq, hbag⟩
          · exact .inr ⟨.tryGet i got, bag', hget, hevent, hbag⟩
      · obtain ⟨q, hq, rfl⟩ := Option.map_eq_some_iff.mp hs
        exact h.pass hq (by simp) (by simp)
  | dequeue c =>
      simp only [Recycling.step] at hs
      split at hs
      · next b a hd =>
          rcases h.addFree hfew hd hs with ⟨hq, hbag⟩ | ⟨hq, hbag⟩
          · refine .inl ⟨?_, hq, hbag⟩
            simp only [event, Queue.event, hq, hd]
            rfl
          · refine .inr ⟨.dequeue c, b :: bag, ?_, event_withBag.symm, hbag⟩
            rw [hq]
            exact ConcurrentQueue.addFree_withBag hd
      · next hadd =>
          obtain ⟨q, hq, rfl⟩ := Option.map_eq_some_iff.mp hs
          refine h.pass hq (fun d b a heq => ?_) (by simp)
          cases heq
          exact hadd b a
  | tryGet i got => cases hs

section Runs

variable {blockCount : Nat} {blockIndex : ι → Bool} {value : ι → Size → Option BlockId}
  {as : List (Action ι κ α)}

/-- A run of the queue with the free list is one of the queue with the bag. -/
theorem exists_run_withBag (hfew : FreeList.Few (ι ⊕ κ)) {P : ConcurrentQueue ι κ α → Prop}
    (hP : ∀ q bag, P q → P (q.withBag bag))
    (hw : machine.Along (fun s _ _ => P s.queue) (.initial blockCount blockIndex value) as)
    (hrun : machine.run (.initial blockCount blockIndex value) as = some s) :
    ∃ bs bag, ConcurrentQueue.machine.run (.initial blockCount blockIndex value) bs =
        some (s.queue.withBag bag) ∧
      ConcurrentQueue.machine.Along (fun q _ _ => P q) (.initial blockCount blockIndex value) bs ∧
      machine.trace event (.initial blockCount blockIndex value) as =
        ConcurrentQueue.machine.trace Queue.event (.initial blockCount blockIndex value) bs ∧
      s.Bagged bag := by
  have hmatched : ∃ bs q, ConcurrentQueue.machine.run (.initial blockCount blockIndex value) bs =
        some q ∧
      ConcurrentQueue.machine.Along (fun q _ _ => P q) (.initial blockCount blockIndex value) bs ∧
      (machine.trace event (.initial blockCount blockIndex value) as).map id =
        ConcurrentQueue.machine.trace Queue.event (.initial blockCount blockIndex value) bs ∧
      ∃ bag, q = s.queue.withBag bag ∧ s.Bagged bag := by
    refine hw.matched (R := fun s q => ∃ bag, q = s.queue.withBag bag ∧ s.Bagged bag) ?_
      ⟨[], rfl, .initial ..⟩ hrun
    rintro s act s' q ⟨bag, rfl, hbag⟩ hs hp
    rcases hbag.step hfew hs with ⟨he, hq, hbag'⟩ | ⟨act', bag', hs', he, hbag'⟩
    · exact .inl ⟨he, bag, by rw [hq], hbag'⟩
    · exact .inr ⟨act', _, hs', hP _ _ hp, by rw [he, Option.map_id]; rfl, bag', rfl, hbag'⟩
  obtain ⟨bs, q, hbs, hall, htrace, bag, rfl, hbag⟩ := hmatched
  rw [List.map_id] at htrace
  exact ⟨bs, bag, hbs, hall, htrace, hbag⟩

/-! ## Nobody is blocked -/

omit [DecidableEq ι] in
/-- `add` is called for a block that its caller has. -/
theorem Bagged.out_of_addFree {v : View ι κ α} (h : s.Bagged bag)
    (hv : Good v (s.queue.withBag bag)) (hd : s.queue.deq c = .addFree b a)
    (hp : (s.freeList.place (.inr c)).outside = true) : s.freeList.out b = true := by
  have hretired : ∀ {d : κ} {a : α}, s.queue.deq d = .addFree b a → v.owner b = .retired d := by
    intro d a hd
    have hc := hv.consumer d
    rw [show (s.queue.withBag bag).deq d = .addFree b a from hd] at hc
    exact hc.2
  by_contra hout
  have hnot : ¬ s.InBag b := fun hin => by
    have hfree := (hv.pool.idle b .free trivial).mpr ((h.mem b).mpr hin)
    cases hfree.symm.trans (hretired hd)
  obtain ⟨d, hnode⟩ : ∃ d, (s.freeList.place (.inr d)).node? = some b := by
    by_contra hno
    exact hnot ⟨Bool.eq_false_iff.mpr hout, fun d hd => hno ⟨d, hd⟩⟩
  rcases h.adding d with hp' | ⟨b', a', hd', hadds⟩
  · rw [FreeList.Place.node_of_outside hp'] at hnode
    cases hnode
  · cases (FreeList.Place.node_of_adds hadds).symm.trans hnode
    cases (hretired hd).symm.trans (hretired hd')
    cases hplace : s.freeList.place (.inr c) with
    | idle last =>
        rw [hplace] at hadds
        exact hadds
    | _ =>
        rw [hplace] at hp
        cases hp

/-- No thread that is in a call waits for another. -/
structure Unblocked (s : Recycling ι κ α) : Prop where
  deq : ∀ c, (∃ last, s.queue.deq c = .idle last) ∨ (s.step (.dequeue c)).isSome = true
  enq : ∀ i, (∃ last, s.queue.enq i = .idle last) ∨ (s.step (.enqueue i)).isSome = true

theorem Bagged.unblocked {v : View ι κ α} (h : s.Bagged bag)
    (hv : Good v (s.queue.withBag bag)) : s.Unblocked where
  deq c := by
    by_cases hidle : ∃ last, s.queue.deq c = .idle last
    · exact .inl hidle
    · refine .inr ?_
      simp only [Recycling.step]
      split
      · next b a hd =>
          rw [addFreeStep, Option.isSome_map]
          split
          · next hp =>
              have hout := h.out_of_addFree hv hd hp
              cases hplace : s.freeList.place (.inr c) with
              | idle last => simp [FreeList.step, FreeList.addStep, hplace, hout]
              | _ =>
                  rw [hplace] at hp
                  cases hp
          · next hp => exact FreeList.next_isSome (Bool.eq_false_iff.mpr hp)
      · rw [Option.isSome_map]
        exact ConcurrentQueue.dequeueStep_isSome (fun last hd => hidle ⟨last, hd⟩)
          (hv.shows.deq c)
  enq i := by
    by_cases hidle : ∃ last, s.queue.enq i = .idle last
    · exact .inl hidle
    · refine .inr ?_
      simp only [Recycling.step]
      split
      · rw [tryGetStep, Option.isSome_map]
        split
        · next hp =>
            cases hplace : s.freeList.place (.inl i) with
            | idle last => simp [FreeList.step, hplace]
            | _ =>
                rw [hplace] at hp
                cases hp
        · next hp => exact FreeList.next_isSome (Bool.eq_false_iff.mpr hp)
      · next htry =>
          rw [Option.isSome_map]
          refine (ConcurrentQueue.enqueueStep_isSome (fun last he => hidle ⟨last, he⟩)
            (hv.shows.enq i)).resolve_right fun hget => ?_
          cases he : s.queue.enq i with
          | tryGet a entry => exact htry a entry he
          | _ => simp [ConcurrentQueue.tryGetStep, he] at hget

/-- The queue with its own free list does what the one with the bag does, which is what a queue
with a lane for each producer does; and nobody is blocked. -/
theorem recycling_refines (hfew : FreeList.Few (ι ⊕ κ)) (blockCount : Nat)
    (blockIndex : ι → Bool) (value : ι → Size → Option BlockId)
    (hw : machine.Along (fun s _ _ => s.queue.Within) (.initial blockCount blockIndex value) as)
    (hrun : machine.run (.initial blockCount blockIndex value) as = some s) :
    (∃ bs bag, ConcurrentQueue.machine.run (.initial blockCount blockIndex value) bs =
        some (s.queue.withBag bag) ∧
      machine.trace event (.initial blockCount blockIndex value) as =
        ConcurrentQueue.machine.trace Queue.event (.initial blockCount blockIndex value) bs ∧
      ∀ b, b ∈ bag ↔ s.InBag b) ∧
    (∃ t : LaneQueue ι κ α, EventPath LaneQueue.Next .empty
      (machine.trace event (.initial blockCount blockIndex value) as) t ∧ Shows t s.queue) ∧
    s.Unblocked := by
  obtain ⟨bs, bag, hbs, hall, htrace, hbag⟩ := exists_run_withBag hfew (fun _ _ => id) hw hrun
  obtain ⟨v, hpath, hv, -⟩ := (Good.initial blockCount blockIndex value).run .start hall hbs
  exact ⟨⟨bs, bag, hbs, htrace, hbag.mem⟩, ⟨v.laneQueue, htrace ▸ hpath, hv.shows.of_withBag⟩,
    hbag.unblocked hv⟩

end Runs

/-- One block of 32 elements is filled and emptied; the consumer frees it, and the producer
gets it for the next element. -/
def recycled : List (Action Unit Unit Nat) :=
  List.flatten [[.tryEnqueue () 0], List.replicate 10 (.enqueue ()),
    List.flatten (List.replicate 31 [.tryEnqueue () 1, .enqueue (), .enqueue ()]),
    List.flatten (List.replicate 32 (.tryDequeue () () :: List.replicate 11 (.dequeue ()))),
    List.replicate 6 (.dequeue ()), [.tryEnqueue () 2], List.replicate 16 (.enqueue ())]

theorem run_recycled : ∃ s : Recycling Unit Unit Nat,
    machine.run (.initial 1 (fun _ => true) fun _ _ => none) recycled = some s ∧
      s.queue.enq () = .idle (some true) ∧ s.queue.deq () = .idle (some (some 1)) := by
  have hplaces : (machine.run (.initial 1 (fun _ => true) fun _ _ => none) recycled).map
      (fun s => (s.queue.enq (), s.queue.deq ())) =
      some (.idle (some true), .idle (some (some 1))) := by decide +kernel
  obtain ⟨s, hrun, hs⟩ := Option.map_eq_some_iff.mp hplaces
  exact ⟨s, hrun, Prod.mk.inj hs⟩

theorem recycling_refines_recycled : ∃ (s : Recycling Unit Unit Nat) (t : LaneQueue Unit Unit Nat),
    machine.run (.initial 1 (fun _ => true) fun _ _ => none) recycled = some s ∧
      s.queue.enq () = .idle (some true) ∧ s.queue.deq () = .idle (some (some 1)) ∧
      EventPath LaneQueue.Next .empty
        (machine.trace event (.initial 1 (fun _ => true) fun _ _ => none) recycled) t ∧
      Shows t s.queue ∧ s.Unblocked := by
  obtain ⟨s, hrun, henq, hdeq⟩ := run_recycled
  obtain ⟨-, ⟨t, hpath, hshows⟩, hfree⟩ := recycling_refines (by decide) 1 (fun _ => true)
    (fun _ _ => none) (by decide +kernel) hrun
  exact ⟨s, t, hrun, henq, hdeq, hpath, hshows, hfree⟩

omit [Fintype κ] [DecidableEq κ] in
/-- With one consumer, every run whatsoever. -/
theorem recycling_serial (hfew : FreeList.Few (ι ⊕ Unit)) (blockCount : Nat)
    (blockIndex : ι → Bool) (value : ι → Size → Option BlockId) {as : List (Action ι Unit α)}
    {s : Recycling ι Unit α}
    (hrun : machine.run (.initial blockCount blockIndex value) as = some s) :
    (∃ t : LaneQueue ι Unit α, EventPath LaneQueue.Next .empty
      (machine.trace event (.initial blockCount blockIndex value) as) t ∧ Shows t s.queue) ∧
    s.Unblocked := by
  obtain ⟨bs, bag, hbs, -, htrace, hbag⟩ := exists_run_withBag (P := fun _ => True) hfew
    (fun _ _ => id) Machine.along_true hrun
  obtain ⟨v, r, ⟨hv, -⟩, hpath, -⟩ := Serial.reached hbs
  exact ⟨⟨v.laneQueue, htrace ▸ hpath, hv.shows.of_withBag⟩, hbag.unblocked hv⟩

theorem recycling_serial_recycled :
    ∃ (s : Recycling Unit Unit Nat) (t : LaneQueue Unit Unit Nat),
    machine.run (.initial 1 (fun _ => true) fun _ _ => none) recycled = some s ∧
      s.queue.enq () = .idle (some true) ∧ s.queue.deq () = .idle (some (some 1)) ∧
      EventPath LaneQueue.Next .empty
        (machine.trace event (.initial 1 (fun _ => true) fun _ _ => none) recycled) t ∧
      Shows t s.queue ∧ s.Unblocked := by
  obtain ⟨s, hrun, henq, hdeq⟩ := run_recycled
  obtain ⟨⟨t, hpath, hshows⟩, hfree⟩ := recycling_serial (by decide) 1 (fun _ => true)
    (fun _ _ => none) hrun
  exact ⟨s, t, hrun, henq, hdeq, hpath, hshows, hfree⟩

end Recycling

end Rtlog.Queue
