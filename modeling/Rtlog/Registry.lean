/-
# `Rtlog.Registry` — the logger behind `get()`, and who else refers to it

`Singleton.hpp`.  A logger object has an identity, and three things refer to it:
`instance`, which owns it; `atomic_rtlogger`, which `initialize` sets beside it;
and the `m_Queue` of every consumer that was constructed on its queue.

    initialize    new object, the old one deleted, both pointers to the new one
    destroy       the object deleted, `instance` null
    consumers     keep the reference they were constructed with

Nothing tells a consumer that its queue has gone.  So a consumer that runs while
the logger is replaced or destroyed is left with the queue of a dead object, its
next poll reads freed memory (`dangled`), and producers fill another one
(`registry_iff`).  As long as that does not happen the three agree.
-/
import Rtlog.Logger
import Rtlog.Base.Machine

namespace Rtlog

variable {T : LoggerTraits}

/-! ## Objects -/

/-- The identity of a logger object. -/
abbrev LoggerId := Nat

/-- A consumer: whose queue its `m_Queue` is, and whether `stop()` was called. -/
structure Consumer where
  queue : LoggerId
  stopped : Bool
  deriving DecidableEq, Repr

structure Registry (T : LoggerTraits) where
  /-- The loggers that exist. -/
  heap : LoggerId → Option (CLogger T)
  next : LoggerId
  /-- `instance`. -/
  instancePtr : Option LoggerId
  atomicRtlogger : Option LoggerId
  consumers : List Consumer
  /-- A consumer has polled the queue of a logger that does not exist. -/
  dangled : Bool

inductive RegistryAction where
  /-- `initialize(level)`. -/
  | initializeInstance (level : LogLevel)
  | destroy
  | get
  /-- `get().write(..)` on thread `t`. -/
  | write (t : Tid) (m : Message) (alloc : Nat → Bool) (accept : Bool)
  /-- A consumer on `get().getQueue()`. -/
  | construct
  /-- A `try_dequeue` of consumer `i`, and the lane it finds something in. -/
  | poll (i : Nat) (lane : Option Tid)
  | stop (i : Nat)

namespace Registry

/-- No logger yet. -/
def init (T : LoggerTraits) : Registry T where
  heap := fun _ => none
  next := 0
  instancePtr := none
  atomicRtlogger := none
  consumers := []
  dangled := false

/-- `instance.reset(p)`: the object it owned is deleted. -/
def reset (p : Option LoggerId) (r : Registry T) : Registry T where
  heap :=
    match r.instancePtr with
    | some old => Function.update r.heap old none
    | none => r.heap
  next := r.next
  instancePtr := p
  atomicRtlogger := r.atomicRtlogger
  consumers := r.consumers
  dangled := r.dangled

/-- `new derived_type(level)`. -/
def alloc (level : LogLevel) (r : Registry T) : Registry T :=
  { r with heap := Function.update r.heap r.next (some (.init T level)), next := r.next + 1 }

/-- `Singleton::initialize`. -/
def initializeInstance (level : LogLevel) (r : Registry T) : Registry T :=
  { (r.alloc level).reset (some r.next) with atomicRtlogger := some r.next }

/-- `Singleton::destroy`. -/
def destroy (r : Registry T) : Registry T := r.reset none

/-- `Singleton::get`, where `instance` is not null. -/
def get (r : Registry T) : Option LoggerId := r.instancePtr

/-- The logger `id` is now `lg`. -/
def update (id : LoggerId) (lg : CLogger T) (r : Registry T) : Registry T :=
  { r with heap := Function.update r.heap id (some lg) }

/-- A `try_dequeue` on the queue of the logger `id`. -/
def pollQueue (id : LoggerId) (lane : Option Tid) (r : Registry T) : Option (Registry T) :=
  match r.heap id, lane with
  | none, _ => some { r with dangled := true }
  | some _, none => some r
  | some lg, some t => (lg.queue.pop? t).map fun x => r.update id { lg with queue := x.2 }

def step (r : Registry T) (a : RegistryAction) : Option (Registry T) :=
  if r.dangled then none
  else
    match a with
    | .initializeInstance level => some (r.initializeInstance level)
    | .destroy => some r.destroy
    | .get => r.get.map fun _ => r
    | .write t m alloc accept =>
        r.get.bind fun id => (r.heap id).map fun lg =>
          r.update id (lg.write alloc accept t m).2
    | .construct =>
        r.get.map fun id => { r with consumers := r.consumers ++ [⟨id, false⟩] }
    | .poll i lane =>
        match r.consumers[i]? with
        | some ⟨id, false⟩ => r.pollQueue id lane
        | _ => none
    | .stop i =>
        match r.consumers[i]? with
        | some ⟨id, false⟩ => some { r with consumers := r.consumers.set i ⟨id, true⟩ }
        | _ => none

end Registry

/-- The program's use of one logger type. -/
def registry (T : LoggerTraits) : Machine (Registry T) RegistryAction := ⟨Registry.step⟩

namespace Registry

/-! ## What a step can do -/

inductive Step : Registry T → RegistryAction → Registry T → Prop
  | initializeInstance {r : Registry T} (level : LogLevel) :
      Step r (.initializeInstance level) (r.initializeInstance level)
  | destroy {r : Registry T} : Step r .destroy r.destroy
  | get {r : Registry T} {id : LoggerId} (hid : r.instancePtr = some id) : Step r .get r
  | write {r : Registry T} {id : LoggerId} {lg : CLogger T} (t : Tid) (m : Message)
      (alloc : Nat → Bool) (accept : Bool) (hid : r.instancePtr = some id)
      (hlg : r.heap id = some lg) :
      Step r (.write t m alloc accept) (r.update id (lg.write alloc accept t m).2)
  | construct {r : Registry T} {id : LoggerId} (hid : r.instancePtr = some id) :
      Step r .construct { r with consumers := r.consumers ++ [⟨id, false⟩] }
  | pollDead {r : Registry T} {i : Nat} {id : LoggerId} (lane : Option Tid)
      (hi : r.consumers[i]? = some ⟨id, false⟩) (hlg : r.heap id = none) :
      Step r (.poll i lane) { r with dangled := true }
  | pollEmpty {r : Registry T} {i : Nat} {id : LoggerId} {lg : CLogger T}
      (hi : r.consumers[i]? = some ⟨id, false⟩) (hlg : r.heap id = some lg) :
      Step r (.poll i none) r
  | pollTake {r : Registry T} {i : Nat} {id : LoggerId} {lg : CLogger T} {t : Tid}
      {p : ArgumentArray T} {queue : Lanes Tid (ArgumentArray T)}
      (hi : r.consumers[i]? = some ⟨id, false⟩) (hlg : r.heap id = some lg)
      (hpop : lg.queue.pop? t = some (p, queue)) :
      Step r (.poll i (some t)) (r.update id { lg with queue := queue })
  | stop {r : Registry T} {i : Nat} {id : LoggerId} (hi : r.consumers[i]? = some ⟨id, false⟩) :
      Step r (.stop i) { r with consumers := r.consumers.set i ⟨id, true⟩ }

theorem Step.of_step {r r' : Registry T} {a : RegistryAction} (h : r.step a = some r') :
    Step r a r' := by
  unfold step at h
  split at h
  · cases h
  · cases a with
    | initializeInstance level => cases h; exact .initializeInstance level
    | destroy => cases h; exact .destroy
    | get =>
        obtain ⟨id, hid, rfl⟩ := Option.map_eq_some_iff.mp h
        exact .get hid
    | write t m alloc accept =>
        obtain ⟨id, hid, h⟩ := Option.bind_eq_some_iff.mp h
        obtain ⟨lg, hlg, rfl⟩ := Option.map_eq_some_iff.mp h
        exact .write t m alloc accept hid hlg
    | construct =>
        obtain ⟨id, hid, rfl⟩ := Option.map_eq_some_iff.mp h
        exact .construct hid
    | poll i lane =>
        dsimp only at h
        split at h
        · next id hi =>
            unfold pollQueue at h
            split at h
            · next hlg => cases h; exact .pollDead _ hi hlg
            · next lg hlg => cases h; exact .pollEmpty hi hlg
            · next lg t hlg =>
                obtain ⟨⟨p, queue⟩, hpop, rfl⟩ := Option.map_eq_some_iff.mp h
                exact .pollTake hi hlg hpop
        · cases h
    | stop i =>
        dsimp only at h
        split at h
        · next id hi => cases h; exact .stop hi
        · cases h

/-! ## What holds of every run -/

/-- `instance` owns a logger that exists, and `atomic_rtlogger` designates it; no
identity in use is given out again. -/
structure Valid (r : Registry T) : Prop where
  owned : ∀ id, r.instancePtr = some id →
    r.atomicRtlogger = some id ∧ (r.heap id).isSome ∧ id < r.next
  older : ∀ c ∈ r.consumers, c.queue < r.next

namespace Valid

variable {r r' : Registry T} {a : RegistryAction}

theorem reset_heap_of_ne {p : Option LoggerId} {id : LoggerId} (h : r.instancePtr ≠ some id) :
    (r.reset p).heap id = r.heap id := by
  cases hold : r.instancePtr with
  | none => simp only [reset, hold]
  | some old =>
      have hne : id ≠ old := by
        rintro rfl
        exact h hold
      simp only [reset, hold, Function.update_of_ne hne]

theorem init (T : LoggerTraits) : (Registry.init T).Valid where
  owned _ h := by cases h
  older _ h := absurd h List.not_mem_nil

theorem initializeInstance (h : r.Valid) (level : LogLevel) :
    (r.initializeInstance level).Valid where
  owned id hid := by
    cases hid
    refine ⟨rfl, ?_, Nat.lt_succ_self _⟩
    -- the object that is deleted is not the new one
    have hne : (r.alloc level).instancePtr ≠ some r.next :=
      fun hold => Nat.lt_irrefl _ (h.owned _ hold).2.2
    show (((r.alloc level).reset (some r.next)).heap r.next).isSome
    rw [reset_heap_of_ne hne]
    show (Function.update r.heap r.next _ r.next).isSome
    rw [Function.update_self]
    rfl
  older c hc := Nat.lt_succ_of_lt (h.older c hc)

theorem destroy (h : r.Valid) : r.destroy.Valid where
  owned _ hid := by cases hid
  older := h.older

/-- A logger that exists may change. -/
theorem update (h : r.Valid) (id : LoggerId) (lg : CLogger T) : (r.update id lg).Valid where
  owned j hj := by
    obtain ⟨hatomic, hsome, hlt⟩ := h.owned j hj
    refine ⟨hatomic, ?_, hlt⟩
    rcases eq_or_ne j id with rfl | hne
    · show (Function.update r.heap j (some lg) j).isSome
      rw [Function.update_self]
      rfl
    · show (Function.update r.heap id (some lg) j).isSome
      rwa [Function.update_of_ne hne]
  older := h.older

theorem step (h : r.Valid) (hs : Step r a r') : r'.Valid := by
  cases hs with
  | initializeInstance level => exact h.initializeInstance level
  | destroy => exact h.destroy
  | get _ | pollEmpty _ _ => exact h
  | write t m alloc accept _ _ => exact h.update _ _
  | pollTake _ _ _ => exact h.update _ _
  | pollDead lane _ _ => exact ⟨h.owned, h.older⟩
  | construct hid =>
      refine ⟨h.owned, ?_⟩
      intro c hc
      rcases List.mem_append.mp hc with hc | hc
      · exact h.older c hc
      · rw [List.mem_singleton.mp hc]
        exact (h.owned _ hid).2.2
  | stop hi =>
      refine ⟨h.owned, ?_⟩
      intro c hc
      rcases List.mem_or_eq_of_mem_set hc with hc | rfl
      · exact h.older c hc
      · exact h.older ⟨_, false⟩ (List.mem_of_getElem? hi)

theorem of_run {as : List RegistryAction} (hrun : (registry T).run (.init T) as = some r) :
    r.Valid :=
  Machine.run_invariant (fun _ _ _ h hs => h.step (.of_step hs)) (.init T) hrun

end Valid

/-! ## One queue -/

/-- The consumers that have not been stopped are on the queue of the logger that
`instance` owns, and none has ever met another. -/
structure OneQueue (r : Registry T) : Prop where
  shared : ∀ c ∈ r.consumers, c.stopped = false → r.instancePtr = some c.queue
  sound : r.dangled = false

/-- A step that replaces or deletes the logger finds every consumer stopped. -/
def Undisturbed (r : Registry T) (a : RegistryAction) (_ : Registry T) : Prop :=
  match a with
  | .initializeInstance _ | .destroy => ∀ c ∈ r.consumers, c.stopped = true
  | _ => True

section OneQueue

variable {r r' : Registry T} {a : RegistryAction}

theorem OneQueue.step (hv : r.Valid) (h : r.OneQueue) (hs : Step r a r')
    (hu : Undisturbed r a r') : r'.OneQueue := by
  cases hs with
  | initializeInstance level =>
      refine ⟨fun c hc hrun => ?_, h.sound⟩
      rw [hu c hc] at hrun
      cases hrun
  | destroy =>
      refine ⟨fun c hc hrun => ?_, h.sound⟩
      rw [hu c hc] at hrun
      cases hrun
  | get _ | pollEmpty _ _ => exact h
  | write t m alloc accept _ _ => exact ⟨h.shared, h.sound⟩
  | pollTake _ _ _ => exact ⟨h.shared, h.sound⟩
  | pollDead lane hi hlg =>
      -- the logger that a running consumer refers to exists
      have hid := h.shared _ (List.mem_of_getElem? hi) rfl
      have hsome := (hv.owned _ hid).2.1
      rw [hlg] at hsome
      cases hsome
  | construct hid =>
      refine ⟨fun c hc hrun => ?_, h.sound⟩
      rcases List.mem_append.mp hc with hc | hc
      · exact h.shared c hc hrun
      · rw [List.mem_singleton.mp hc]
        exact hid
  | stop hi =>
      refine ⟨fun c hc hrun => ?_, h.sound⟩
      rcases List.mem_or_eq_of_mem_set hc with hc | rfl
      · exact h.shared c hc hrun
      · cases hrun

/-- Where a consumer runs, replacing or deleting the logger leaves it behind. -/
theorem not_oneQueue_of_disturbed (hv : r.Valid) (hs : Step r a r')
    (hu : ¬ Undisturbed r a r') : ¬ r'.OneQueue := by
  intro h'
  cases hs with
  | initializeInstance level =>
      simp only [Undisturbed, not_forall] at hu
      obtain ⟨c, hc, hrun⟩ := hu
      have hnew : r.next = c.queue :=
        Option.some.inj (h'.shared c hc (Bool.eq_false_iff.mpr hrun))
      exact Nat.ne_of_gt (hv.older c hc) hnew
  | destroy =>
      simp only [Undisturbed, not_forall] at hu
      obtain ⟨c, hc, hrun⟩ := hu
      cases h'.shared c hc (Bool.eq_false_iff.mpr hrun)
  | _ => exact hu trivial

end OneQueue

end Registry

/-- `get()` returns a logger that exists, the one `atomic_rtlogger` designates; and
every consumer that has not been stopped is on its queue all along a run exactly if
no step of the run replaces or deletes the logger under a running consumer. -/
theorem registry_iff {as : List RegistryAction} {s : Registry T}
    (hrun : (registry T).run (.init T) as = some s) :
    (∀ id, s.get = some id → s.atomicRtlogger = some id ∧ (s.heap id).isSome) ∧
    ((∀ (pre : List RegistryAction) (t : Registry T), pre <+: as →
        (registry T).run (.init T) pre = some t → t.OneQueue) ↔
      (registry T).Along Registry.Undisturbed (.init T) as) := by
  constructor
  · intro id hid
    obtain ⟨hatomic, hsome, -⟩ := (Registry.Valid.of_run hrun).owned id hid
    exact ⟨hatomic, hsome⟩
  · constructor
    · intro h
      by_contra hP
      obtain ⟨pre, a, post, u, v, rfl, hu, hv, hnu, -⟩ :=
        Machine.exists_step_of_not_along hrun hP
      refine Registry.not_oneQueue_of_disturbed (.of_run hu) (.of_step hv) hnu ?_
      refine h (pre ++ [a]) v ⟨post, by simp⟩ ?_
      rw [Machine.run_append, hu]
      exact (Machine.run_cons_eq_some _).mpr ⟨v, hv, rfl⟩
    · rintro hP pre t ⟨post, rfl⟩ hpre
      refine (Machine.Along.invariant (I := fun r : Registry T => r.Valid ∧ r.OneQueue) ?_
        hP.of_append ⟨.init T, ⟨fun _ h => absurd h List.not_mem_nil, rfl⟩⟩ hpre).2
      rintro r a r' ⟨hv, h⟩ hs hu
      exact ⟨hv.step (.of_step hs), h.step hv (.of_step hs) hu⟩

/-- A logger's life: a consumer is constructed, finds nothing, is stopped, and only
then is the logger destroyed. -/
def orderly : List RegistryAction :=
  [.initializeInstance .info, .construct, .get, .poll 0 none, .stop 0, .destroy]

theorem registry_iff_orderly : ∃ s : Registry loggerTraits,
    (registry loggerTraits).run (.init _) orderly = some s ∧
    ∀ (pre : List RegistryAction) (t : Registry loggerTraits), pre <+: orderly →
      (registry loggerTraits).run (.init _) pre = some t → t.OneQueue := by
  refine ⟨_, rfl, (registry_iff
    (show (registry loggerTraits).run (.init _) orderly = some _ from rfl)).2.mpr ?_⟩
  refine .cons rfl (fun c hc => absurd hc List.not_mem_nil) <| .cons rfl trivial <|
    .cons rfl trivial <| .cons rfl trivial <| .cons rfl trivial <| .cons rfl ?_ trivial
  intro c hc
  rw [List.mem_singleton.mp hc]

/-- What is asked of the three references after every step. -/
def Registry.InStep (r : Registry T) : Prop :=
  (r.atomicRtlogger = none ∨ ∃ id, r.atomicRtlogger = some id ∧ r.instancePtr = some id) ∧
  ∀ c ∈ r.consumers, c.stopped = false → r.instancePtr = some c.queue

/-- A second logger while a consumer of the first is running. -/
theorem not_inStep :
    ¬ ∀ (T : LoggerTraits) (as : List RegistryAction) (s : Registry T),
      (registry T).run (.init T) as = some s → s.InStep := by
  intro h
  have hshared := (h loggerTraits
    [.initializeInstance .info, .construct, .initializeInstance .info] _ rfl).2
  have hqueue := hshared ⟨0, false⟩ (List.mem_singleton_self _) rfl
  exact absurd hqueue (by decide)

end Rtlog
