/-
# `Rtlog.Queue.Refinement` — the queue is a queue

Whatever the interleaving, a run of the queue from the constructor is answered by
a run of `LaneQueue`, the queue without words, blocks and free lists:

    tailIndex.store         push i a      the element put in, now at the end of lane i
    headIndex.fetch_add     claim c i a   `a` is what the index leads to at that moment
    return from `dequeue`   answer c r

Every other step is silent.  The one condition on the run is `Within`: no producer
has an optimistic count more than half a turn ahead of its head.
-/
import Rtlog.Base.LaneQueue
import Rtlog.Queue.Held

namespace Rtlog.Queue

open LaneQueue (Event)

variable {ι κ α : Type}

/-! ## What is seen of a step -/

/-- What the index leads to from the head of producer `i`. -/
def ConcurrentQueue.front (q : ConcurrentQueue ι κ α) (i : ι) : Option α :=
  let p := q.producers i
  let entry := indexIndex p.headIndex p.tail (p.index p.tail).key
  (p.index entry).value.bind fun b => (q.blocks b).elements (pos p.headIndex)

/-- What a call has returned, when it has just done so. -/
def Dequeue.answer? : Dequeue ι α → Option (Option α)
  | .idle last => last
  | _ => none

/-- What the callers see of a step. -/
def event (q : ConcurrentQueue ι κ α) (act : Action ι κ α) (q' : ConcurrentQueue ι κ α) :
    Option (Event ι κ α) :=
  match act with
  | .tryEnqueue .. | .tryGet .. | .tryDequeue .. => none
  | .enqueue i =>
      match q.enq i with
      | .storeTailIndex a => some (.push i a)
      | _ => none
  | .dequeue c =>
      match q.deq c with
      | .fetchHead i => (q.front i).map (.claim c i)
      | _ => (q'.deq c).answer?.map (.answer c)

/-- What a view stands for. -/
def View.laneQueue (v : View ι κ α) : LaneQueue ι κ α := ⟨fun i => (v.subQueue i).lane, v.hand⟩

/-! ## The start -/

/-- Nothing enqueued, every block in the pool. -/
def View.initial : View ι κ α where
  subQueue _ := ⟨.empty, [], fun _ => .queued, 0, fun _ => 0, fun _ => .inUse⟩
  owner _ := .pool
  hand _ := none

theorem ConcurrentQueue.producerOk_initial [DecidableEq κ] (blockIndex : Bool)
    (value : Size → Option BlockId) (blocks : BlockId → Block α) (owner : BlockId → Owner ι κ)
    (i : ι) :
    ProducerOk ((View.initial : View ι κ α).subQueue i) (.new blockIndex value) (.idle none)
      blocks owner i where
  counters := {
    tailIndex := rfl
    headIndex := rfl
    optimistic := rfl
    overcommit := rfl
    sound := .empty
    window := Nat.zero_le _
    length := rfl
    queued := fun n => iff_of_true rfl (Nat.zero_le n) }
  index := {
    tail := by
      show (0#64 - 1#64) &&& (implicitInitialIndexSize - 1#64) = slot (0 + 31)
      decide
    keys := fun _ => .inl rfl
    used := fun k hk => absurd hk (Nat.not_lt_zero k)
    ahead := nofun }
  storage := {
    tail_le := Nat.le_refl _
    le_tail := Nat.zero_le _
    le_head := Nat.zero_le _
    tailBlock := nofun
    value := fun k hk => absurd hk (Nat.not_lt_zero k)
    owner := fun k hk => absurd hk (Nat.not_lt_zero k)
    counter := fun k hk => absurd hk (Nat.not_lt_zero k)
    inUse := fun k hk => absurd hk (Nat.not_lt_zero k)
    drained := fun k hk => absurd hk (Nat.not_lt_zero k)
    elements := fun k hk => absurd hk (Nat.not_lt_zero k) }
  enqueue := by
    show 32 * 0 < 0 + 32
    decide

theorem Good.initial [DecidableEq κ] (blockCount : Nat) (blockIndex : ι → Bool)
    (value : ι → Size → Option BlockId) :
    Good (View.initial : View ι κ α) (.initial blockCount blockIndex value) where
  producer i := ConcurrentQueue.producerOk_initial _ _ _ _ i
  consumer _ := rfl
  pool := {
    idle := fun b o ho => by
      cases o with
      | pool => exact iff_of_true rfl (.inl (Nat.zero_le b))
      | free => exact iff_of_false (by nofun) List.not_mem_nil
      | fresh j => exact iff_of_false (by nofun) (by nofun)
      | block j k => exact ho.elim
      | retired c => exact iff_of_false (by nofun) (by nofun)
    nodup := List.nodup_nil
    block := nofun
    raw := fun _ _ _ _ => rfl }

/-! ## The lanes of a view -/

variable [DecidableEq ι]

/-- A change that leaves the head and the items of a producer leaves its lane. -/
theorem View.lanes_eq {v : View ι κ α} {i : ι} {s : SubQueue κ α}
    (hitems : s.items = (v.subQueue i).items) (hhead : s.claims.head = (v.subQueue i).claims.head) :
    (fun j => (Function.update v.subQueue i s j).lane) = fun j => (v.subQueue j).lane := by
  funext j
  rcases eq_or_ne j i with rfl | hne
  · rw [Function.update_self, SubQueue.lane, SubQueue.lane, hitems, hhead]
  · rw [Function.update_of_ne hne]

theorem View.laneQueue_push {v : View ι κ α} {i : ι} {a : α}
    (hle : (v.subQueue i).claims.head ≤ (v.subQueue i).items.length) :
    (v.push i a).laneQueue = { v.laneQueue with lanes := v.laneQueue.lanes.push i a } := by
  have hlanes : (v.push i a).laneQueue.lanes = v.laneQueue.lanes.push i a := by
    funext j
    rcases eq_or_ne j i with rfl | hne
    · simp only [Lanes.push_same, View.laneQueue, View.push, Function.update_self, SubQueue.lane]
      exact List.drop_append_of_le_length hle
    · simp only [Lanes.push_of_ne hne, View.laneQueue, View.push, Function.update_of_ne hne]
  rw [← hlanes]
  rfl

variable [DecidableEq κ]

theorem View.laneQueue_claim {v : View ι κ α} {i : ι} {c : κ} {a : α} (hhand : v.hand c = none)
    (ha : (v.subQueue i).items[(v.subQueue i).claims.head]? = some a) :
    LaneQueue.Next v.laneQueue (.claim c i a) (v.claim i c).laneQueue := by
  obtain ⟨hlt, hget⟩ := List.getElem?_eq_some_iff.mp ha
  have hlane : (v.subQueue i).lane = a :: (v.subQueue i).items.drop
      ((v.subQueue i).claims.head + 1) := by
    rw [SubQueue.lane, List.drop_eq_getElem_cons hlt, hget]
  have hnext : (v.claim i c).laneQueue = ⟨Function.update v.laneQueue.lanes i
      ((v.subQueue i).items.drop ((v.subQueue i).claims.head + 1)),
      Function.update v.laneQueue.hand c (some a)⟩ := by
    have hlanes : (v.claim i c).laneQueue.lanes = Function.update v.laneQueue.lanes i
        ((v.subQueue i).items.drop ((v.subQueue i).claims.head + 1)) := by
      funext j
      rcases eq_or_ne j i with rfl | hne
      · simp only [View.laneQueue, View.claim, Function.update_self]
        rfl
      · simp only [View.laneQueue, View.claim, Function.update_of_ne hne]
    rw [← hlanes, ← ha]
    rfl
  rw [hnext]
  exact .claim hhand (Lanes.pop?_eq_some.mpr ⟨_, hlane, rfl⟩)

/-! ## One step -/

variable {v v' : View ι κ α} {q q' : ConcurrentQueue ι κ α} {act : Action ι κ α} {i : ι} {c : κ}

omit [DecidableEq ι] in
/-- What the index leads to is the oldest element nobody has claimed. -/
theorem Good.front_eq (h : Good v q)
    (hlt : (v.subQueue i).claims.head < (v.subQueue i).claims.tail) :
    q.front i = (v.subQueue i).items[(v.subQueue i).claims.head]? := by
  have hi := h.producer i
  have hb := hi.storage
  have hqueued := (hi.counters.queued _).mpr (Nat.le_refl (v.subQueue i).claims.head)
  have hblock : (v.subQueue i).claims.head / 32 < (v.subQueue i).count := by
    have := hb.tail_le
    omega
  have hphase : (v.subQueue i).phase ((v.subQueue i).claims.head / 32) ≠ .freed := by
    rw [hb.inUse_of_ne_gone hblock (by rw [hqueued]; nofun)]
    nofun
  have hentry : indexIndex (q.producers i).headIndex (q.producers i).tail
      ((q.producers i).index (q.producers i).tail).key =
        slot ((v.subQueue i).claims.head / 32) := by
    rcases hi.index.keys (q.producers i).tail with hinv | ⟨k, htail, hkey⟩
    · exact absurd hinv (hi.key_tail (Nat.lt_of_le_of_lt (Nat.zero_le _) hblock))
    · rw [hkey, htail, hi.counters.headIndex, indexIndex_eq]
  rw [ConcurrentQueue.front, hentry, hb.value _ hblock hphase, Option.bind_some,
    hi.counters.headIndex, pos_word,
    hb.elements _ hblock hphase _ (Nat.mod_lt _ (by decide)), Nat.div_add_mod, SubQueue.cell,
    hqueued]
  exact List.getElem?_append_left (hi.counters.length ▸ hlt)

/-- `LaneQueue` answers the step, and ends in what a view of the next state stands for. -/
def Answered (v : View ι κ α) (q : ConcurrentQueue ι κ α) (act : Action ι κ α)
    (q' : ConcurrentQueue ι κ α) : Prop :=
  ∃ v', EventPath LaneQueue.Next v.laneQueue (event q act q').toList v'.laneQueue ∧ Good v' q' ∧
    (Held v q → Held v' q')

theorem Answered.silent (hg : Good v' q') (hheld : Held v q → Held v' q')
    (he : event q act q' = none) (hv : v'.laneQueue = v.laneQueue) : Answered v q act q' := by
  refine ⟨v', ?_, hg, hheld⟩
  rw [he, hv]
  exact .nil _

/-- ... with the same view. -/
theorem Answered.unseen (hg : Good v q') (hdeq : q'.deq = q.deq) (he : event q act q' = none) :
    Answered v q act q' :=
  .silent hg (fun hh => hh.stay (fun c => by rw [hdeq]) fun _ _ _ _ hm => hm) he rfl

theorem Answered.seen {e : Event ι κ α} (hg : Good v' q') (hheld : Held v q → Held v' q')
    (he : event q act q' = some e) (hv : LaneQueue.Next v.laneQueue e v'.laneQueue) :
    Answered v q act q' := by
  refine ⟨v', ?_, hg, hheld⟩
  rw [he]
  exact .cons hv (.nil _)

/-- A call that returns gives back what the consumer had in hand. -/
theorem Answered.returns {r : Option α} (hg : Good v' q') (hheld : Held v q → Held v' q')
    (he : event q act q' = some (.answer c r)) (hr : v.hand c = r)
    (hlanes : v'.laneQueue.lanes = v.laneQueue.lanes)
    (hhand : v'.hand = Function.update v.hand c none) : Answered v q act q' := by
  refine .seen hg hheld he ?_
  subst hr
  have hv : v'.laneQueue = ⟨v.laneQueue.lanes, Function.update v.laneQueue.hand c none⟩ := by
    rw [← hlanes]
    exact congrArg (LaneQueue.mk _) hhand
  rw [hv]
  exact .answer _ c

theorem Good.enqueueStep (h : Good v q) (hs : q.enqueueStep i = some q') :
    Answered v q (.enqueue i) q' := by
  cases he : q.enq i with
  | idle last => simp [ConcurrentQueue.enqueueStep, he] at hs
  | tryGet a s => simp [ConcurrentQueue.enqueueStep, he] at hs
  | undefined => simp [ConcurrentQueue.enqueueStep, he] at hs
  | loadHead a =>
      simp only [ConcurrentQueue.enqueueStep, he, Option.some.injEq] at hs
      subst hs
      refine .unseen ?_ rfl (by simp only [event, he])
      split
      · exact h.refuse_full he
      · next hfull => exact h.loadHead he (Bool.eq_false_of_not_eq_true hfull)
  | insertEntry a =>
      simp only [ConcurrentQueue.enqueueStep, he, Option.some.injEq] at hs
      subst hs
      refine .unseen ?_ rfl (by simp only [event, he])
      split
      · next hroom => exact h.insertEntry he hroom
      · exact h.refuse_room he
  | storeKey a s =>
      simp only [ConcurrentQueue.enqueueStep, he, Option.some.injEq] at hs
      subst hs
      exact .silent (h.storeKey he) id (by simp only [event, he]) rfl
  | storeTail a s =>
      simp only [ConcurrentQueue.enqueueStep, he, Option.some.injEq] at hs
      subst hs
      exact .silent (h.storeTail he) id (by simp only [event, he]) rfl
  | loadPool a s =>
      simp only [ConcurrentQueue.enqueueStep, he, Option.some.injEq] at hs
      subst hs
      refine .unseen ?_ rfl (by simp only [event, he])
      split
      · exact (h.loadPool he).1
      · exact (h.loadPool he).2
  | fetchPool a s =>
      simp only [ConcurrentQueue.enqueueStep, he, Option.some.injEq] at hs
      subst hs
      rcases Nat.lt_or_ge q.initialBlockPoolIndex q.initialBlockPoolSize with hlt | hge
      · rw [if_pos hlt]
        exact .silent (h.fetchPool he hlt) id (by simp only [event, he]) rfl
      · rw [if_neg (Nat.not_lt.mpr hge)]
        exact .silent (h.fetchPool_empty he hge) id (by simp only [event, he]) rfl
  | rewind s =>
      simp only [ConcurrentQueue.enqueueStep, he, Option.some.injEq] at hs
      subst hs
      exact .silent (h.rewind he) id (by simp only [event, he]) rfl
  | unpublish s =>
      simp only [ConcurrentQueue.enqueueStep, he, Option.some.injEq] at hs
      subst hs
      exact .silent (h.unpublish he) id (by simp only [event, he]) rfl
  | resetEmpty a s b =>
      simp only [ConcurrentQueue.enqueueStep, he, Option.some.injEq] at hs
      subst hs
      exact .silent (h.resetEmpty he) id (by simp only [event, he]) rfl
  | publish a s b =>
      simp only [ConcurrentQueue.enqueueStep, he, Option.some.injEq] at hs
      subst hs
      exact .silent (h.publish he) (fun hh => hh.publish rfl) (by simp only [event, he])
        (congrArg (LaneQueue.mk · _) (View.lanes_eq rfl rfl))
  | construct a =>
      obtain ⟨b, hb, hg⟩ := h.construct he
      simp only [ConcurrentQueue.enqueueStep, he, hb, Option.some.injEq] at hs
      subst hs
      exact .silent hg id (by simp only [event, he]) rfl
  | storeTailIndex a =>
      simp only [ConcurrentQueue.enqueueStep, he, Option.some.injEq] at hs
      subst hs
      refine .seen (e := .push i a) (h.storeTailIndex he)
        (fun hh => hh.stay_update rfl (fun _ => rfl) fun _ _ _ hm => hm)
        (by simp only [event, he]) ?_
      rw [View.laneQueue_push ((h.producer i).counters.length ▸
        (h.producer i).counters.sound.head_le_tail)]
      exact .push ..

theorem Good.tryGetStep {got : Option BlockId} (h : Good v q) (hs : q.tryGetStep i got = some q') :
    Answered v q (.tryGet i got) q' := by
  cases he : q.enq i with
  | tryGet a s =>
      cases got with
      | none =>
          simp only [ConcurrentQueue.tryGetStep, he, Option.some.injEq] at hs
          subst hs
          exact .silent (h.tryGet_none he) id rfl rfl
      | some b =>
          simp only [ConcurrentQueue.tryGetStep, he, Option.ite_none_right_eq_some,
            Option.some.injEq] at hs
          obtain ⟨hmem, rfl⟩ := hs
          exact .silent (h.tryGet he hmem) id rfl rfl
  | _ => simp [ConcurrentQueue.tryGetStep, he] at hs

omit [DecidableEq κ] in
theorem View.laneQueue_recount {claims : Claims κ}
    (hhead : claims.head = (v.subQueue i).claims.head) :
    (v.recount i claims).laneQueue = v.laneQueue :=
  congrArg (LaneQueue.mk · _) (View.lanes_eq rfl hhead)

omit [DecidableEq ι] in
/-- The event of a step of `dequeue` that claims nothing. -/
theorem event_dequeue {d d' : Dequeue ι α} (hd : q.deq c = d) (hne : ∀ i, d ≠ .fetchHead i) :
    event q (.dequeue c) (q'.setDeq c d') = d'.answer?.map (.answer c) := by
  subst hd
  have hself : (q'.setDeq c d').deq c = d' := Function.update_self ..
  cases hd : q.deq c with
  | fetchHead i => exact absurd hd (hne i)
  | _ => simp only [event, hd, hself]

theorem Good.dequeueStep (h : Good v q) (hw : ∀ i, (q.producers i).Within)
    (hs : q.dequeueStep c = some q') : Answered v q (.dequeue c) q' := by
  cases hd : q.deq c with
  | idle last => simp [ConcurrentQueue.dequeueStep, hd] at hs
  | undefined => simp [ConcurrentQueue.dequeueStep, hd] at hs
  | loadTail i =>
      simp only [ConcurrentQueue.dequeueStep, hd, Option.some.injEq] at hs
      subst hs
      exact .silent (h.loadTail hd) (fun hh => hh.goto rfl (by rw [hd]; rfl) fun _ _ _ _ hm => hm)
        (event_dequeue hd (by nofun)) rfl
  | loadOvercommit i t =>
      simp only [ConcurrentQueue.dequeueStep, hd, Option.some.injEq] at hs
      subst hs
      exact .silent (h.loadOvercommit hd)
        (fun hh => hh.goto rfl (by rw [hd]; rfl) fun _ _ _ _ => View.marked_recount)
        (event_dequeue hd (by nofun)) (View.laneQueue_recount rfl)
  | loadOptimistic i t o =>
      simp only [ConcurrentQueue.dequeueStep, hd, Option.some.injEq] at hs
      subst hs
      split
      · exact .silent (h.loadOptimistic hd)
          (fun hh => hh.goto rfl (by rw [hd]; rfl) fun _ _ _ _ hm => hm)
          (event_dequeue hd (by nofun)) rfl
      · have hhand := h.consumer c
        rw [hd] at hhand
        exact .returns (h.giveUp hd) (fun hh => hh.goto rfl (by rw [hd]; rfl) fun _ _ _ _ hm => hm)
          (event_dequeue hd (by nofun)) hhand.1 rfl
          (by rw [← hhand.1, Function.update_eq_self])
  | fetchOptimistic i o =>
      simp only [ConcurrentQueue.dequeueStep, hd, Option.some.injEq] at hs
      subst hs
      obtain ⟨m, -, hg⟩ := h.fetchOptimistic hd (hw i)
      exact .silent hg (fun hh => hh.goto rfl (by rw [hd]; rfl) fun _ _ _ _ => View.marked_recount)
        (event_dequeue hd (by nofun)) (View.laneQueue_recount rfl)
  | reloadTail i o x =>
      simp only [ConcurrentQueue.dequeueStep, hd, Option.some.injEq] at hs
      subst hs
      split
      · next hless =>
          obtain ⟨m, hg⟩ := h.enrol hd hless
          exact .silent hg
            (fun hh => hh.goto rfl (by rw [hd]; rfl) fun _ _ _ _ => View.marked_recount)
            (event_dequeue hd (by nofun)) (View.laneQueue_recount rfl)
      · obtain ⟨m, hg⟩ := h.refuse hd
        exact .silent hg
          (fun hh => hh.goto rfl (by rw [hd]; rfl) fun _ _ _ _ => View.marked_recount)
          (event_dequeue hd (by nofun)) (View.laneQueue_recount rfl)
  | fetchHead i =>
      simp only [ConcurrentQueue.dequeueStep, hd, Option.some.injEq] at hs
      subst hs
      obtain ⟨a, hitem, hhand, hg⟩ := h.fetchHead hd
      obtain ⟨hlt, -⟩ := List.getElem?_eq_some_iff.mp hitem
      have hfront := (h.front_eq ((h.producer i).counters.length ▸ hlt)).trans hitem
      exact .seen (e := .claim c i a) hg (fun hh => hh.claim (by rw [hd]; rfl) rfl rfl)
        (by simp only [event, hd, hfront, Option.map_some])
        (View.laneQueue_claim hhand hitem)
  | loadIndexTail i x =>
      simp only [ConcurrentQueue.dequeueStep, hd, Option.some.injEq] at hs
      subst hs
      exact .silent (h.loadIndexTail hd)
        (fun hh => hh.goto rfl (by rw [hd]; rfl) fun _ _ _ _ hm => hm)
        (event_dequeue hd (by nofun)) rfl
  | loadKey i x t =>
      simp only [ConcurrentQueue.dequeueStep, hd, Option.some.injEq] at hs
      subst hs
      exact .silent (h.loadKey hd) (fun hh => hh.goto rfl (by rw [hd]; rfl) fun _ _ _ _ hm => hm)
        (event_dequeue hd (by nofun)) rfl
  | loadValue i x s =>
      obtain ⟨b, hb, hg⟩ := h.loadValue hd
      simp only [ConcurrentQueue.dequeueStep, hd, hb, Option.some.injEq] at hs
      subst hs
      exact .silent hg (fun hh => hh.goto rfl (by rw [hd]; rfl) fun _ _ _ _ hm => hm)
        (event_dequeue hd (by nofun)) rfl
  | take i x s b =>
      obtain ⟨n, a, hn, ha, hg⟩ := h.take hd
      simp only [ConcurrentQueue.dequeueStep, hd, ha, Option.some.injEq] at hs
      subst hs
      exact .silent hg (fun hh => hh.take hn rfl rfl) (event_dequeue hd (by nofun))
        (congrArg (LaneQueue.mk · _) (View.lanes_eq rfl rfl))
  | setEmpty i s b a =>
      obtain ⟨hhand, n, hn, hg⟩ := h.setEmpty hd
      simp only [ConcurrentQueue.dequeueStep, hd, Option.some.injEq] at hs
      subst hs
      by_cases hlast : (q.blocks b).elementsCompletelyDequeued = blockSize.toNat - 1
      · rw [if_pos hlast] at hg ⊢
        rw [decide_eq_true hlast] at hg
        exact .silent hg (fun hh => hh.drain hn rfl rfl) (event_dequeue hd (by nofun))
          (congrArg (LaneQueue.mk · _) (View.lanes_eq rfl rfl))
      · rw [if_neg hlast] at hg ⊢
        rw [decide_eq_false hlast] at hg
        exact .returns hg (fun hh => hh.setEmpty hn rfl rfl) (event_dequeue hd (by nofun)) hhand
          (View.lanes_eq rfl rfl) rfl
  | clearValue i s b a =>
      obtain ⟨k, hk, hg⟩ := h.clearValue hd
      simp only [ConcurrentQueue.dequeueStep, hd, Option.some.injEq] at hs
      subst hs
      exact .silent hg (fun hh => hh.retire hk rfl rfl) (event_dequeue hd (by nofun))
        (congrArg (LaneQueue.mk · _) (View.lanes_eq rfl rfl))
  | addFree b a =>
      obtain ⟨hhand, hg⟩ := h.addFree hd
      simp only [ConcurrentQueue.dequeueStep, hd, Option.some.injEq] at hs
      subst hs
      exact .returns hg (fun hh => hh.goto rfl (by rw [hd]; rfl) fun _ _ _ _ hm => hm)
        (event_dequeue hd (by nofun)) hhand rfl rfl
  | fetchOvercommit i =>
      have hhand := h.consumer c
      rw [hd] at hhand
      simp only [ConcurrentQueue.dequeueStep, hd, Option.some.injEq] at hs
      subst hs
      exact .returns (h.fetchOvercommit hd)
        (fun hh => hh.goto rfl (by rw [hd]; rfl) fun _ _ _ _ => View.marked_recount)
        (event_dequeue hd (by nofun)) hhand.1
        (congrArg LaneQueue.lanes (View.laneQueue_recount rfl))
        (by rw [← hhand.1, Function.update_eq_self]; rfl)

/-- No producer's optimistic count is more than half a turn ahead of its head. -/
def ConcurrentQueue.Within (q : ConcurrentQueue ι κ α) : Prop := ∀ i, (q.producers i).Within

instance [Fintype ι] (q : ConcurrentQueue ι κ α) : Decidable q.Within :=
  inferInstanceAs (Decidable (∀ i, (q.producers i).Within))

theorem Good.step (h : Good v q) (hw : q.Within) (hs : q.step act = some q') :
    Answered v q act q' := by
  cases act with
  | tryEnqueue i a =>
      cases he : q.enq i with
      | idle last =>
          simp only [ConcurrentQueue.step, he, Option.some.injEq] at hs
          subst hs
          exact .silent (h.enter he a) id rfl rfl
      | _ => simp [ConcurrentQueue.step, he] at hs
  | enqueue i => exact h.enqueueStep hs
  | tryGet i got => exact h.tryGetStep hs
  | tryDequeue c i =>
      cases hd : q.deq c with
      | idle last =>
          have hhand := h.consumer c
          rw [hd] at hhand
          simp only [ConcurrentQueue.step, hd, Option.some.injEq] at hs
          subst hs
          exact .silent (h.setDeq hhand (by rw [hd]; rfl))
            (fun hh => hh.goto rfl (by rw [hd]; rfl) fun _ _ _ _ hm => hm) rfl rfl
      | _ => simp [ConcurrentQueue.step, hd] at hs
  | dequeue c => exact h.dequeueStep hw hs

/-! ## Whole runs -/

/-- A state that has a view stays one, along every run on which the counts are within
half a turn. -/
theorem Good.run {as : List (Action ι κ α)} (h : Good v q) (hheld : Held v q)
    (hw : ConcurrentQueue.machine.Along (fun q _ _ => q.Within) q as)
    (hrun : ConcurrentQueue.machine.run q as = some q') :
    ∃ v', EventPath LaneQueue.Next v.laneQueue (ConcurrentQueue.machine.trace event q as)
      v'.laneQueue ∧ Good v' q' ∧ Held v' q' := by
  obtain ⟨t, hpath, v', rfl, hg⟩ := hw.refines
    (R := fun q t => ∃ v : View ι κ α, v.laneQueue = t ∧ Good v q ∧ Held v q)
    (fun q act q' t ⟨v, hv, hg, hheld⟩ hs hw => by
      subst hv
      obtain ⟨v', hpath, hg', hheld'⟩ := hg.step hw hs
      exact ⟨_, hpath, v', rfl, hg', hheld' hheld⟩) ⟨v, rfl, h, hheld⟩ hrun
  exact ⟨v', hpath, hg⟩

omit [DecidableEq ι] [DecidableEq κ] in
theorem Held.start {q : ConcurrentQueue ι κ α} : Held (View.initial : View ι κ α) q :=
  .initial (fun _ _ => rfl) fun _ _ => rfl

/-! ## What the state shows of the lanes -/

/-- The lanes of `t` are there to be seen in `q`, and no thread has come to a null block or
to storage without an element. -/
structure Shows (t : LaneQueue ι κ α) (q : ConcurrentQueue ι κ α) : Prop where
  length : ∀ i, ((q.producers i).tailIndex - (q.producers i).headIndex).toNat = (t.lanes i).length
  front : ∀ i, (t.lanes i).head? =
    if (q.producers i).headIndex = (q.producers i).tailIndex then none else q.front i
  enq : ∀ i, q.enq i ≠ .undefined
  deq : ∀ c, q.deq c ≠ .undefined

omit [DecidableEq ι] in
theorem Good.length_eq (h : Good v q) (i : ι) :
    ((q.producers i).tailIndex - (q.producers i).headIndex).toNat =
      (v.laneQueue.lanes i).length := by
  have hi := h.producer i
  have hle := hi.counters.sound.head_le_tail
  have htail := hi.storage.tail_le
  have hhead := hi.storage.le_head
  rw [hi.counters.tailIndex, hi.counters.headIndex, Circular.toNat_sub_of_le hle (by omega)]
  simp only [View.laneQueue, SubQueue.lane, List.length_drop, hi.counters.length]

omit [DecidableEq ι] in
theorem Good.shows (h : Good v q) : Shows v.laneQueue q where
  length := h.length_eq
  front i := by
    have hlen := h.length_eq i
    split
    · next heq =>
        rw [heq, BitVec.sub_self] at hlen
        rw [List.length_eq_zero_iff.mp hlen.symm]
        rfl
    · next hne =>
        have hlt : (v.subQueue i).claims.head < (v.subQueue i).claims.tail := by
          refine Nat.lt_of_le_of_ne (h.producer i).counters.sound.head_le_tail fun heq => hne ?_
          rw [(h.producer i).counters.headIndex, (h.producer i).counters.tailIndex, heq]
        rw [h.front_eq hlt]
        exact List.head?_drop
  enq i hu := by
    have hi := (h.producer i).enqueue
    rw [hu] at hi
    exact hi
  deq c hu := by
    have hc := h.consumer c
    rw [hu] at hc
    exact hc

/-- Every run from the constructor, with any number of producers and of consumers in any
interleaving, does what a queue with a lane for each producer does. -/
theorem queue_refines (blockCount : Nat) (blockIndex : ι → Bool)
    (value : ι → Size → Option BlockId) {as : List (Action ι κ α)} {q : ConcurrentQueue ι κ α}
    (hw : ConcurrentQueue.machine.Along (fun q _ _ => q.Within)
      (.initial blockCount blockIndex value) as)
    (hrun : ConcurrentQueue.machine.run (.initial blockCount blockIndex value) as = some q) :
    ∃ t : LaneQueue ι κ α, EventPath LaneQueue.Next .empty
      (ConcurrentQueue.machine.trace event (.initial blockCount blockIndex value) as) t ∧
      Shows t q := by
  obtain ⟨v, hpath, hg, -⟩ := (Good.initial blockCount blockIndex value).run .start hw hrun
  exact ⟨v.laneQueue, hpath, hg.shows⟩

/-- An element put in, and two consumers that both see it; one has to give its ticket back. -/
def race : List (Action Unit Bool Nat) :=
  .tryEnqueue () 7 :: List.replicate 10 (.enqueue ()) ++
    [.tryDequeue true (), .tryDequeue false ()] ++
    List.replicate 3 (.dequeue true) ++ List.replicate 3 (.dequeue false) ++
    [.dequeue true, .dequeue false, .dequeue true, .dequeue false] ++
    List.replicate 6 (.dequeue true) ++ [.dequeue false]

theorem queue_refines_race : ∃ t : LaneQueue Unit Bool Nat, EventPath LaneQueue.Next .empty
    [.push () 7, .claim true () 7, .answer true (some 7), .answer false none] t := by
  have hsome : (ConcurrentQueue.machine.run (.initial 2 (fun _ => true) fun _ _ => none)
      race).isSome = true := by decide +kernel
  obtain ⟨t, hpath, -⟩ := queue_refines 2 (fun _ => true) (fun _ _ => none) (by decide +kernel)
    (Option.some_get hsome).symm
  have htrace : ConcurrentQueue.machine.trace event (.initial 2 (fun _ => true) fun _ _ => none)
      race = [.push () 7, .claim true () 7, .answer true (some 7), .answer false none] := by
    decide +kernel
  exact ⟨t, htrace ▸ hpath⟩

/-- What has been taken from a producer is a first part of what was put in, in the same order,
and what its counters say is there is the rest; and what a consumer has taken its calls have
returned, in the same order, up to one element that the call it is in is going to return. -/
theorem queue_fifo (blockCount : Nat) (blockIndex : ι → Bool)
    (value : ι → Size → Option BlockId) {as : List (Action ι κ α)} {q : ConcurrentQueue ι κ α}
    (hw : ConcurrentQueue.machine.Along (fun q _ _ => q.Within)
      (.initial blockCount blockIndex value) as)
    (hrun : ConcurrentQueue.machine.run (.initial blockCount blockIndex value) as = some q) :
    let es := ConcurrentQueue.machine.trace event (.initial blockCount blockIndex value) as
    (∀ i, ∃ rest, LaneQueue.pushed i es = LaneQueue.claimedFrom i es ++ rest ∧
      rest.length = ((q.producers i).tailIndex - (q.producers i).headIndex).toNat) ∧
    ∀ c, ∃ hand : Option α, LaneQueue.claimedBy c es = LaneQueue.returned c es ++ hand.toList ∧
      ∀ last, q.deq c = .idle last → hand = none := by
  intro es
  obtain ⟨v, hpath, hg, -⟩ := (Good.initial blockCount blockIndex value).run .start hw hrun
  refine ⟨fun i => ⟨v.laneQueue.lanes i, LaneQueue.fifo hpath i, (hg.length_eq i).symm⟩,
    fun c => ⟨v.laneQueue.hand c, LaneQueue.answered hpath c, fun last hd => ?_⟩⟩
  have hok := hg.consumer c
  rw [hd] at hok
  exact hok

theorem queue_fifo_race : ∃ q : ConcurrentQueue Unit Bool Nat,
    ConcurrentQueue.machine.run (.initial 2 (fun _ => true) fun _ _ => none) race = some q ∧
      (∃ rest, [7] = [7] ++ rest ∧
        rest.length = ((q.producers ()).tailIndex - (q.producers ()).headIndex).toNat) ∧
      ∃ hand : Option Nat, [7] = [7] ++ hand.toList := by
  have hsome : (ConcurrentQueue.machine.run (.initial 2 (fun _ => true) fun _ _ => none)
      race).isSome = true := by decide +kernel
  have htrace : ConcurrentQueue.machine.trace event (.initial 2 (fun _ => true) fun _ _ => none)
      race = [.push () 7, .claim true () 7, .answer true (some 7), .answer false none] := by
    decide +kernel
  obtain ⟨q, hrun⟩ := Option.isSome_iff_exists.mp hsome
  obtain ⟨hlane, hhand⟩ := queue_fifo 2 (fun _ => true) (fun _ _ => none) (by decide +kernel) hrun
  rw [htrace] at hlane hhand
  obtain ⟨hand, hanswered, -⟩ := hhand true
  exact ⟨q, hrun, hlane (), hand, hanswered⟩

end Rtlog.Queue
