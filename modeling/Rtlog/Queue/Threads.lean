/-
# `Rtlog.Queue.Threads` — threads that come and go

`Rtlog.Queue.ProducerHash` knows a thread by its id.  Here threads start and end.  The id is
the address of a variable that every thread has of its own while it lives, so a thread can
only start with an id that no living thread has; but it may be one that a thread had which
has ended.  A thread does not end inside a call.

    start t      `t` lives, with the id `threadId t`
    exit t       it has ended, and its id is free
    step a       a step of `get_or_add_implicit_producer`, by a living thread

What the threads do is a run of the ids (`exists_run_hash`).  So two threads are given one
producer exactly if they have one id: never if they live at once, and always if one has got
the id of the other (`producer_of_thread`).
-/
import Rtlog.Queue.Producers

namespace Rtlog.Queue

variable {τ ι κ : Type}

/-! ## The machine -/

/-- The same step, by a thread with another name. -/
def HashAction.map (f : τ → ι) : HashAction τ → HashAction ι
  | .call t => .call (f t)
  | .next t => .next (f t)
  | .malloc t ok => .malloc (f t) ok
  | .weak t => .weak (f t)

@[simp] theorem HashAction.thread_map (f : τ → ι) (a : HashAction τ) :
    (a.map f).thread = f a.thread := by
  cases a <;> rfl

/-- A thread is in no call. -/
def GetOrAdd.outside : GetOrAdd → Bool
  | .idle _ => true
  | _ => false

structure Threads (τ ι : Type) where
  hash : ProducerHash ι
  /-- The living thread that has the id. -/
  living : ι → Option τ

inductive ThreadAction (τ : Type) where
  | start (t : τ)
  | exit (t : τ)
  | step (a : HashAction τ)

namespace Threads

variable [DecidableEq τ] [DecidableEq ι] (hashedId : ι → Nat) (threadId : τ → ι)

def initial : Threads τ ι := ⟨.initial, fun _ => none⟩

def step (s : Threads τ ι) : ThreadAction τ → Option (Threads τ ι)
  | .start t =>
      if s.living (threadId t) = none then
        some { s with living := Function.update s.living (threadId t) (some t) }
      else none
  | .exit t =>
      if s.living (threadId t) = some t ∧ (s.hash.place (threadId t)).outside = true then
        some { s with living := Function.update s.living (threadId t) none }
      else none
  | .step a =>
      if s.living (threadId a.thread) = some a.thread then
        (s.hash.step hashedId (a.map threadId)).map fun hash => { s with hash := hash }
      else none

def machine : Machine (Threads τ ι) (ThreadAction τ) := ⟨step hashedId threadId⟩

end Threads

/-! ## What the callers see -/

namespace Registration

/-- The thread an event is of. -/
def Event.thread : Event ι → ι
  | .listed t _ | .answered t _ => t

/-- The same event, of a thread with another name. -/
def Event.map (f : τ → ι) : Event τ → Event ι
  | .listed t p => .listed (f t) p
  | .answered t r => .answered (f t) r

/-- The event as one of thread `t`. -/
def Event.of (t : τ) : Event ι → Event τ
  | .listed _ p => .listed t p
  | .answered _ r => .answered t r

theorem Event.map_of {f : τ → ι} {t : τ} {e : Event ι} (h : e.thread = f t) :
    (e.of t).map f = e := by
  cases e <;> cases h <;> rfl

end Registration

/-- An event is of the thread that makes the step. -/
theorem ProducerHash.thread_event {s s' : ProducerHash ι} {a : HashAction ι}
    {e : Registration.Event ι} (h : event s a s' = some e) : e.thread = a.thread := by
  cases a with
  | call | malloc | weak => cases h
  | next t =>
      simp only [event] at h
      split at h <;> cases h <;> rfl

namespace Threads

def event (threadId : τ → ι) (s : Threads τ ι) (a : ThreadAction τ) (s' : Threads τ ι) :
    Option (Registration.Event τ) :=
  match a with
  | .start _ | .exit _ => none
  | .step a => (ProducerHash.event s.hash (a.map threadId) s'.hash).map (.of a.thread)

variable [DecidableEq τ] [DecidableEq ι] {hashedId : ι → Nat} {threadId : τ → ι}
  {s s' : Threads τ ι}

/-! ## A run of threads is one of ids -/

/-- A step of a thread is one of its id, or none. -/
theorem step_cases {a : ThreadAction τ} (hs : s.step hashedId threadId a = some s') :
    (s'.hash = s.hash ∧ event threadId s a s' = none) ∨
    ∃ b, s.hash.step hashedId b = some s'.hash ∧
      (event threadId s a s').map (.map threadId) = ProducerHash.event s.hash b s'.hash := by
  cases a with
  | start t | exit t =>
      simp only [step, Option.ite_none_right_eq_some, Option.some.injEq] at hs
      obtain ⟨-, rfl⟩ := hs
      exact .inl ⟨rfl, rfl⟩
  | step a =>
      simp only [step, Option.ite_none_right_eq_some, Option.map_eq_some_iff] at hs
      obtain ⟨-, hash, hs, rfl⟩ := hs
      refine .inr ⟨a.map threadId, hs, ?_⟩
      simp only [event]
      cases he : ProducerHash.event s.hash (a.map threadId) hash with
      | none => rfl
      | some e =>
          have hthread := ProducerHash.thread_event he
          rw [HashAction.thread_map] at hthread
          exact congrArg some (Registration.Event.map_of hthread)

theorem exists_run_hash {as : List (ThreadAction τ)}
    (hrun : (machine hashedId threadId).run s as = some s') :
    ∃ bs, (ProducerHash.machine hashedId).run s.hash bs = some s'.hash ∧
      ((machine hashedId threadId).trace (event threadId) s as).map (.map threadId) =
        (ProducerHash.machine hashedId).trace ProducerHash.event s.hash bs := by
  have hmatched : ∃ bs hash, (ProducerHash.machine hashedId).run s.hash bs = some hash ∧
      (ProducerHash.machine hashedId).Along (fun _ _ _ => True) s.hash bs ∧
      ((machine hashedId threadId).trace (event threadId) s as).map (.map threadId) =
        (ProducerHash.machine hashedId).trace ProducerHash.event s.hash bs ∧ s'.hash = hash := by
    refine Machine.along_true.matched (R := fun s hash => s.hash = hash) ?_ rfl hrun
    rintro s a s' hash rfl hs -
    rcases step_cases hs with ⟨hhash, he⟩ | ⟨b, hb, he⟩
    · exact .inl ⟨he, hhash⟩
    · exact .inr ⟨b, s'.hash, hb, trivial, he, rfl⟩
  obtain ⟨bs, hash, hbs, -, htrace, rfl⟩ := hmatched
  exact ⟨bs, hbs, htrace⟩

/-- In every run of threads that start and end, two that are given a producer are given the
same exactly if they have the same id; and if at any time both live, exactly if they are the
same thread. -/
theorem producer_of_thread {as bs : List (ThreadAction τ)} {t u : τ} {p q : ProducerId}
    (hrun : (machine hashedId threadId).run initial as = some s)
    (hrun' : (machine hashedId threadId).run s bs = some s')
    (ht : .answered t (some p) ∈
      (machine hashedId threadId).trace (event threadId) initial (as ++ bs))
    (hu : .answered u (some q) ∈
      (machine hashedId threadId).trace (event threadId) initial (as ++ bs)) :
    (threadId t = threadId u ↔ p = q) ∧
      (s.living (threadId t) = some t → s.living (threadId u) = some u → (t = u ↔ p = q)) := by
  have hwhole : (machine hashedId threadId).run initial (as ++ bs) = some s' := by
    rw [Machine.run_append, hrun]
    exact hrun'
  obtain ⟨cs, hcs, htrace⟩ := exists_run_hash hwhole
  have hmem : ∀ {t : τ} {p : ProducerId}, .answered t (some p) ∈
      (machine hashedId threadId).trace (event threadId) initial (as ++ bs) →
      .answered (threadId t) (some p) ∈
        (ProducerHash.machine hashedId).trace ProducerHash.event .initial cs := by
    intro t p h
    have hmap := List.mem_map_of_mem (f := Registration.Event.map threadId) h
    rwa [htrace] at hmap
  have hiff := answered_iff hcs (hmem ht) (hmem hu)
  refine ⟨hiff, fun hlt hlu => ?_⟩
  rw [← hiff]
  constructor
  · intro heq
    rw [heq]
  · intro heq
    rw [heq, hlu] at hlt
    exact (Option.some.inj hlt).symm

/-- Threads 0 and 1 live together and each gets a producer. -/
def together : List (ThreadAction Nat) :=
  [.start 0, .start 1] ++ List.map .step (List.flatten
    [[.call 0], List.replicate 3 (.next 0), [.malloc 0 true], List.replicate 4 (.next 0),
      [.call 1], List.replicate 4 (.next 1), [.malloc 1 true], List.replicate 5 (.next 1)])

/-- Thread 0 has ended when thread 2 starts, and gets its id. -/
def succession : List (ThreadAction Nat) :=
  [.exit 0, .start 2] ++ List.map .step [.call 2, .next 2, .next 2]

theorem producer_of_thread_succession : ∃ s s' : Threads Nat Bool,
    (machine (fun _ => 5) (· != 1)).run initial together = some s ∧
      (machine (fun _ => 5) (· != 1)).run s succession = some s' ∧
      (machine (fun _ => 5) (· != 1)).trace (event (· != 1)) initial (together ++ succession) =
        [.listed 0 0, .answered 0 (some 0), .listed 1 1, .answered 1 (some 1),
          .answered 2 (some 0)] ∧
      ((0 != 1) = (2 != 1) ↔ 0 = 0) ∧
      s.living true = some 0 ∧ s.living false = some 1 ∧ (0 = 1 ↔ (0 : ProducerId) = 1) := by
  have hplaces : ((machine (fun _ => 5) (· != 1)).run (initial : Threads Nat Bool)
      together).map (fun s => (s.living true, s.living false,
        ((machine (fun _ => 5) (· != 1)).run s succession).isSome)) =
      some (some 0, some 1, true) := by decide +kernel
  have htrace : (machine (fun _ => 5) (· != 1)).trace (event (· != 1))
      (initial : Threads Nat Bool) (together ++ succession) =
      [.listed 0 0, .answered 0 (some 0), .listed 1 1, .answered 1 (some 1),
        .answered 2 (some 0)] := by decide +kernel
  obtain ⟨s, hrun, hs⟩ := Option.map_eq_some_iff.mp hplaces
  simp only [Prod.mk.injEq] at hs
  obtain ⟨hzero, hone, hsome⟩ := hs
  obtain ⟨s', hrun'⟩ := Option.isSome_iff_exists.mp hsome
  have hlater := producer_of_thread (t := 0) (u := 2) (p := 0) (q := 0) hrun hrun'
    (by rw [htrace]; decide) (by rw [htrace]; decide)
  have hboth := producer_of_thread (t := 0) (u := 1) (p := 0) (q := 1) hrun hrun'
    (by rw [htrace]; decide) (by rw [htrace]; decide)
  exact ⟨s, s', hrun, hrun', htrace, hlater.1, hzero, hone, hboth.2 hzero hone⟩

end Threads

end Rtlog.Queue
