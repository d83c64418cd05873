/-
# `Rtlog.Queue.Enqueuing` — the steps of `enqueue`

A producer's thread leads from a state that has a view to a state that has one:

    loadHead, insertEntry, loadPool             the same view
    storeKey, storeTail, rewind, unpublish      the same view: no block in use has the slot
    fetchPool, tryGet                           a block is fresh
    resetEmpty                                  its counter is zero
    publish                                     it is the next block of the producer
    construct                                   the same view: nobody looks there yet
    storeTailIndex                              the element is queued

The null `tailBlock` is not reached.  Nor is an entry overwritten that a consumer
still needs: a slot is used again when its block has been freed.
-/
import Rtlog.Queue.Frame

namespace Rtlog.Queue

variable {ι κ α : Type} [DecidableEq ι] [DecidableEq κ] {v : View ι κ α}
  {q : ConcurrentQueue ι κ α} {i : ι}

/-! ## Moving on -/

theorem Good.enter {last : Option Bool} (h : Good v q) (he : q.enq i = .idle last) (a : α) :
    Good v (q.setEnq i ((q.producers i).enter a)) := by
  have hi := h.producer i
  have hidle := hi.enqueue
  have hle := hi.storage.tail_le
  rw [he] at hidle
  have hidle : 32 * (v.subQueue i).count < (v.subQueue i).claims.tail + 32 := hidle
  unfold ImplicitProducer.enter
  split
  · next hzero =>
      rw [hi.counters.tailIndex, word_and_mask_eq_zero] at hzero
      refine h.setEnq ?_ (by rw [he]; rfl) (by rw [he]; rfl) (by rw [he]; rfl)
      show 32 * (v.subQueue i).count = (v.subQueue i).claims.tail
      omega
  · next hzero =>
      rw [hi.counters.tailIndex, word_and_mask_eq_zero] at hzero
      refine h.setEnq ?_ (by rw [he]; rfl) (by rw [he]; rfl) (by rw [he]; rfl)
      show (v.subQueue i).claims.tail < 32 * (v.subQueue i).count
      omega

theorem Good.refuse_full {a : α} (h : Good v q) (he : q.enq i = .loadHead a) :
    Good v (q.setEnq i (.idle (some false))) := by
  have hload := (h.producer i).enqueue
  rw [he] at hload
  have hload : 32 * (v.subQueue i).count = (v.subQueue i).claims.tail := hload
  refine h.setEnq ?_ (by rw [he]; rfl) (by rw [he]; rfl) (by rw [he]; rfl)
  show 32 * (v.subQueue i).count < (v.subQueue i).claims.tail + 32
  omega

omit [DecidableEq ι] in
/-- `full` says no more than half the limit is in use. -/
theorem ProducerOk.full_eq_false {s : SubQueue κ α} {p : ImplicitProducer} {e : Enqueue α}
    {blocks : BlockId → Block α} {owner : BlockId → Owner ι κ}
    (h : ProducerOk s p e blocks owner i) :
    p.full = false ↔ s.claims.tail ≤ s.claims.head + 32 := by
  have hle := h.counters.sound.head_le_tail
  have htail := h.storage.tail_le
  have hhead := h.storage.le_head
  have hless : circularLessThan p.headIndex (p.tailIndex + blockSize) = true := by
    have hword : p.tailIndex + blockSize = word (s.claims.tail + 32) := by
      rw [h.counters.tailIndex]
      exact (BitVec.ofNat_add _ 32).symm
    rw [hword, h.counters.headIndex]
    exact (Circular.less_ofNat_iff (by decide) (by omega) (by omega)).mpr (by omega)
  have hdiff : (p.tailIndex - p.headIndex).toNat = s.claims.tail - s.claims.head := by
    rw [h.counters.tailIndex, h.counters.headIndex]
    exact Circular.toNat_sub_of_le hle (by omega)
  have hmax : maxSubqueueSize - blockSize = 32#64 := rfl
  rw [ImplicitProducer.full, hless, hmax, maxSubqueueSize_eq]
  have hconst : decide ((64#64 : Size) ≠ numericMax) = true := rfl
  have hzero : decide ((64#64 : Size) = 0#64) = false := rfl
  rw [hconst, hzero]
  simp only [Bool.not_true, Bool.false_or, Bool.true_and, decide_eq_false_iff_not, BitVec.lt_def,
    hdiff, BitVec.reduceToNat]
  omega

theorem Good.loadHead {a : α} (h : Good v q) (he : q.enq i = .loadHead a)
    (hfull : (q.producers i).full = false) : Good v (q.setEnq i (.insertEntry a)) := by
  have hload := (h.producer i).enqueue
  rw [he] at hload
  have hload : 32 * (v.subQueue i).count = (v.subQueue i).claims.tail := hload
  have hroom := (h.producer i).full_eq_false.mp hfull
  exact h.setEnq ⟨hload, by omega⟩ (by rw [he]; rfl) (by rw [he]; rfl) (by rw [he]; rfl)

theorem Good.refuse_room {a : α} (h : Good v q) (he : q.enq i = .insertEntry a) :
    Good v (q.setEnq i (.idle (some false))) := by
  have hext := (h.producer i).enqueue
  rw [he] at hext
  exact h.setEnq (Extending.idle hext) (by rw [he]; rfl) (by rw [he]; rfl) (by rw [he]; rfl)

omit [DecidableEq ι] in
/-- If there is room, no block in use has the slot. -/
theorem ProducerOk.vacant {s : SubQueue κ α} {p : ImplicitProducer} {e : Enqueue α}
    {blocks : BlockId → Block α} {owner : BlockId → Owner ι κ}
    (h : ProducerOk s p e blocks owner i) (ha : e.ahead = false) (hroom : p.hasRoom = true) :
    s.Vacant := by
  intro k hk hp heq
  simp only [ImplicitProducer.hasRoom, h.index.newTail_eq ha, ← heq, Bool.and_eq_true,
    Bool.or_eq_true, decide_eq_true_eq] at hroom
  rcases hroom.2 with hkey | hvalue
  · exact h.index.used k hk hkey
  · rw [h.storage.value k hk hp] at hvalue
    cases hvalue

theorem Good.insertEntry {a : α} (h : Good v q) (he : q.enq i = .insertEntry a)
    (hroom : (q.producers i).hasRoom = true) :
    Good v (q.setEnq i (.storeKey a (q.producers i).newTail)) := by
  have hi := h.producer i
  have hext := hi.enqueue
  rw [he] at hext
  have ha : (q.enq i).ahead = false := by rw [he]; rfl
  exact h.setEnq ⟨hext, hi.index.newTail_eq ha, hi.vacant ha hroom⟩ (by rw [he]; rfl)
    (by rw [he]; rfl) (by rw [he]; rfl)

theorem Good.loadPool {a : α} {s : Size} (h : Good v q) (he : q.enq i = .loadPool a s) :
    Good v (q.setEnq i (.tryGet a s)) ∧ Good v (q.setEnq i (.fetchPool a s)) := by
  have hins := (h.producer i).enqueue
  rw [he] at hins
  exact ⟨h.setEnq hins (by rw [he]; rfl) (by rw [he]; rfl) (by rw [he]; rfl),
    h.setEnq hins (by rw [he]; rfl) (by rw [he]; rfl) (by rw [he]; rfl)⟩

theorem Good.tryGet_none {a : α} {s : Size} (h : Good v q) (he : q.enq i = .tryGet a s) :
    Good v (q.setEnq i (.rewind s)) := by
  have hins := (h.producer i).enqueue
  rw [he] at hins
  exact h.setEnq hins (by rw [he]; rfl) (by rw [he]; rfl) (by rw [he]; rfl)

/-! ## Writing to the block index -/

/-- A step that changes the index, or the thread's place, with the same view. -/
theorem Good.reindex (h : Good v q) {p : ImplicitProducer} {e : Enqueue α}
    (hcount : CountersOk (v.subQueue i) p) (hindex : IndexOk (v.subQueue i) p e)
    (hvalue : ∀ k, k < (v.subQueue i).count → (v.subQueue i).phase k ≠ .freed →
      (p.index (slot k)).value = ((q.producers i).index (slot k)).value)
    (htail : p.tailBlock = (q.producers i).tailBlock)
    (hkeys : ∀ t, ((q.producers i).index t).key ≠ invalidBlockBase →
      (p.index t).key ≠ invalidBlockBase)
    (he : EnqueueOk (v.subQueue i) p q.blocks v.owner i e)
    (hpend : e.pending = (q.enq i).pending) (hnew : e.newBlock? = (q.enq i).newBlock?) :
    Good v ((q.setProducer i p).setEnq i e) := by
  have hb := (h.producer i).storage
  refine h.produce rfl rfl rfl (Function.update_eq_self i v.subQueue).symm rfl ?_
    (fun _ _ _ _ _ => ⟨rfl, rfl⟩) (fun _ _ _ _ => ⟨rfl, rfl⟩) (fun c => .refl _ c) hkeys
    (fun _ _ hb => hb) ?_
  · refine ⟨hcount, hindex, ?_, he⟩
    exact { hb with
      tailBlock := fun k hk => htail.trans (hb.tailBlock k hk)
      value := fun k hk hp => (hvalue k hk hp).trans (hb.value k hk hp)
      elements := fun k hk hp j hj => by
        refine (hb.elements k hk hp j hj).trans ?_
        rw [SubQueue.cell, SubQueue.cell, hpend] }
  · refine h.pool.mono rfl (fun _ _ hk hp => ⟨hk, hp, rfl⟩) rfl rfl rfl ?_ (fun _ => rfl)
      fun _ _ => rfl
    intro j
    rcases eq_or_ne j i with rfl | hne
    · simp only [ConcurrentQueue.setEnq, Function.update_self, hnew]
    · simp only [ConcurrentQueue.setEnq, Function.update_of_ne hne]; rfl

theorem Good.storeKey {a : α} {s : Size} (h : Good v q) (he : q.enq i = .storeKey a s) :
    Good v ((q.setProducer i ((q.producers i).setKey s (q.producers i).tailIndex)).setEnq i
      (.storeTail a s)) := by
  have hi := h.producer i
  have hins := hi.enqueue
  rw [he] at hins
  have hins : Inserting (v.subQueue i) s := hins
  have hkey : (q.producers i).tailIndex = key (v.subQueue i).count := by
    rw [hi.counters.tailIndex, ← hins.boundary]
    rfl
  have hthis : (((q.producers i).setKey s (q.producers i).tailIndex).index s).key =
      key (v.subQueue i).count := by
    simp only [ImplicitProducer.setKey, Function.update_self, hkey]
  have hother : ∀ t, t ≠ s → ((q.producers i).setKey s (q.producers i).tailIndex).index t =
      (q.producers i).index t :=
    fun t hne => Function.update_of_ne hne ..
  have hvalid : ∀ t, ((q.producers i).index t).key ≠ invalidBlockBase →
      (((q.producers i).setKey s (q.producers i).tailIndex).index t).key ≠ invalidBlockBase := by
    intro t ht
    rcases eq_or_ne t s with rfl | hne
    · rw [hthis]
      exact key_ne_invalid _
    · rw [hother t hne]
      exact ht
  refine h.reindex { hi.counters with } ?_ ?_ rfl hvalid ⟨hins, ?_⟩ (by rw [he]; rfl)
    (by rw [he]; rfl)
  · have htail := hi.index.tail
    rw [he] at htail
    refine ⟨htail, ?_, fun k hk => hvalid _ (hi.index.used k hk), fun ha => by cases ha⟩
    intro t
    rcases eq_or_ne t s with rfl | hne
    · exact .inr ⟨_, hins.slot_eq, hthis⟩
    · rw [hother t hne]
      exact hi.index.keys t
  · intro k hk hp
    rw [hother _ fun heq => hins.vacant k hk hp (heq.trans hins.slot_eq)]
  · rw [hthis]
    exact key_ne_invalid _

theorem Good.storeTail {a : α} {s : Size} (h : Good v q) (he : q.enq i = .storeTail a s) :
    Good v ((q.setProducer i { q.producers i with tail := s }).setEnq i (.loadPool a s)) := by
  have hi := h.producer i
  have hins := hi.enqueue
  rw [he] at hins
  obtain ⟨hins, hkey⟩ := hins
  refine h.reindex { hi.counters with } ?_ (fun _ _ _ => rfl) rfl (fun _ ht => ht) hins
    (by rw [he]; rfl) (by rw [he]; rfl)
  exact ⟨hins.slot_eq, hi.index.keys, hi.index.used, fun _ => hins.slot_eq ▸ hkey⟩

theorem Good.rewind {s : Size} (h : Good v q) (he : q.enq i = .rewind s) :
    Good v ((q.setProducer i { q.producers i with
      tail := ((q.producers i).tail - 1#64) &&& (implicitInitialIndexSize - 1#64) }).setEnq i
      (.unpublish s)) := by
  have hi := h.producer i
  have hins := hi.enqueue
  rw [he] at hins
  refine h.reindex { hi.counters with } ?_ (fun _ _ _ => rfl) rfl (fun _ ht => ht) hins
    (by rw [he]; rfl) (by rw [he]; rfl)
  refine ⟨?_, hi.index.keys, hi.index.used, fun ha => by cases ha⟩
  have htail := hi.index.tail
  rw [he] at htail
  have htail : (q.producers i).tail = slot ((v.subQueue i).count + 31 + 1) :=
    htail.trans (slot_add _).symm
  show ((q.producers i).tail - 1#64) &&& _ = _
  rw [htail, slot_pred]
  rfl

theorem Good.unpublish {s : Size} (h : Good v q) (he : q.enq i = .unpublish s) :
    Good v ((q.setProducer i ((q.producers i).setValue s none)).setEnq i
      (.idle (some false))) := by
  have hi := h.producer i
  have hins := hi.enqueue
  rw [he] at hins
  have hins : Inserting (v.subQueue i) s := hins
  refine h.reindex { hi.counters with } ?_ ?_ rfl ?_ hins.idle (by rw [he]; rfl) (by rw [he]; rfl)
  · have htail := hi.index.tail
    rw [he] at htail
    exact {
      tail := htail
      keys := fun t => by rw [ImplicitProducer.key_setValue]; exact hi.index.keys t
      used := fun k hk => by rw [ImplicitProducer.key_setValue]; exact hi.index.used k hk
      ahead := fun ha => by cases ha }
  · intro k hk hp
    have hne : slot k ≠ s := fun heq => hins.vacant k hk hp (heq.trans hins.slot_eq)
    simp only [ImplicitProducer.setValue, Function.update_of_ne hne]
  · intro t ht
    rw [ImplicitProducer.key_setValue]
    exact ht

/-! ## Getting a block -/

/-- Producer `i` has got block `b`. -/
def View.acquire (v : View ι κ α) (i : ι) (b : BlockId) : View ι κ α :=
  { v with owner := Function.update v.owner b (.fresh i) }

omit [DecidableEq ι] [DecidableEq κ] in
/-- The blocks of producers are where they were. -/
theorem PoolOk.block_of_fresh {b b' : BlockId} {j : ι} {k : Nat} (h : PoolOk v q)
    (hb' : (v.acquire i b).owner b' = .block j k) :
    k < ((v.acquire i b).subQueue j).count ∧ ((v.acquire i b).subQueue j).phase k ≠ .freed ∧
      ((v.acquire i b).subQueue j).block k = b' := by
  have hne : b' ≠ b := by
    rintro rfl
    simp only [View.acquire, Function.update_self] at hb'
    cases hb'
  simp only [View.acquire, Function.update_of_ne hne] at hb'
  exact h.block b' j k hb'

/-- A producer that has a slot gets a block that is idle. -/
theorem Good.acquire {q' : ConcurrentQueue ι κ α} {a : α} {s : Size} {b : BlockId}
    {o : Owner ι κ} (h : Good v q) (hproducers : q'.producers = q.producers)
    (henq : q'.enq = Function.update q.enq i (.resetEmpty a s b)) (hdeq : q'.deq = q.deq)
    (hblocks : q'.blocks = q.blocks) (hins : Inserting (v.subQueue i) s)
    (hahead : (q.enq i).ahead = true) (hpend : (q.enq i).pending = [])
    (hb : v.owner b = o) (hne : ∀ j k, o ≠ .block j k) (hne' : ∀ j, o ≠ .fresh j)
    (hne'' : ∀ c, o ≠ .retired c) (hpool : PoolOk (v.acquire i b) q') :
    Good (v.acquire i b) q' := by
  have hi := h.producer i
  have hother : ∀ b' x, v.owner b' = x → o ≠ x → (v.acquire i b).owner b' = v.owner b' := by
    intro b' x hb' hx
    refine Function.update_of_ne ?_ ..
    rintro rfl
    exact hx (hb.symm.trans hb')
  refine h.produce (p := q.producers i) (s := v.subQueue i) ?_ henq hdeq
    (Function.update_eq_self i v.subQueue).symm rfl ?_
    (fun b' j k _ hb' => ⟨by rw [hblocks], hother b' _ hb' (hne j k)⟩)
    (fun b' j _ hb' => ⟨by rw [hblocks], hother b' _ hb' (hne' j)⟩) (fun c => .refl _ c)
    (fun _ ht => ht) (fun b' c hb' => (hother b' _ hb' (hne'' c)).trans hb') hpool
  · rw [hproducers, Function.update_eq_self]
  · rw [hblocks]
    refine ⟨hi.counters, ?_, ?_, hins, Function.update_self ..⟩
    · have htail := hi.index.tail
      rw [hahead] at htail
      exact ⟨htail, hi.index.keys, hi.index.used, fun _ => hi.index.ahead hahead⟩
    · have hstorage := hi.storage.frame (fun b' k hb' =>
        (⟨rfl, hother b' _ hb' (hne i k)⟩ : q.blocks b' = q.blocks b' ∧ _))
      exact { hstorage with
        elements := fun k hk hp j hj => by
          refine (hstorage.elements k hk hp j hj).trans ?_
          rw [SubQueue.cell, SubQueue.cell, hpend]
          rfl }

theorem Good.fetchPool {a : α} {s : Size} (h : Good v q) (he : q.enq i = .fetchPool a s)
    (hlt : q.initialBlockPoolIndex < q.initialBlockPoolSize) :
    Good (v.acquire i q.initialBlockPoolIndex)
      ({ q with initialBlockPoolIndex := q.initialBlockPoolIndex + 1 }.setEnq i
        (.resetEmpty a s q.initialBlockPoolIndex)) := by
  have hins := (h.producer i).enqueue
  rw [he] at hins
  have hb := (h.pool.idle q.initialBlockPoolIndex .pool trivial).mpr (.inl (Nat.le_refl _))
  refine h.acquire rfl rfl rfl rfl hins (by rw [he]; rfl) (by rw [he]; rfl) hb (by nofun)
    (by nofun) (by nofun) ?_
  refine h.pool.pass rfl hb (by nofun) ?_ ?_ ?_ h.pool.nodup
    (fun _ _ _ => h.pool.block_of_fresh)
    (fun _ => h.pool.raw _ (by rw [hb]; trivial)) fun _ _ _ => rfl
  · intro b' x _ hx hx'
    cases x with
    | pool => exact absurd rfl hx
    | fresh j =>
        have hji : j ≠ i := fun heq => hx' (congrArg _ heq)
        simp only [ConcurrentQueue.Has, ConcurrentQueue.setEnq, Function.update_of_ne hji]
    | _ => exact Iff.rfl
  · intro _ b'
    show q.initialBlockPoolIndex + 1 ≤ b' ∨ q.initialBlockPoolSize ≤ b' ↔
      (q.initialBlockPoolIndex ≤ b' ∨ q.initialBlockPoolSize ≤ b') ∧
        @Ne Nat b' q.initialBlockPoolIndex
    omega
  · intro _ b'
    simp only [ConcurrentQueue.Has, ConcurrentQueue.setEnq, Function.update_self, he,
      Enqueue.newBlock?]
    simp [eq_comm]

/-- The pool was emptied since the test. -/
theorem Good.fetchPool_empty {a : α} {s : Size} (h : Good v q) (he : q.enq i = .fetchPool a s)
    (hge : q.initialBlockPoolSize ≤ q.initialBlockPoolIndex) :
    Good v ({ q with initialBlockPoolIndex := q.initialBlockPoolIndex + 1 }.setEnq i
      (.tryGet a s)) := by
  have hins := (h.producer i).enqueue
  rw [he] at hins
  have hstep : Good v (q.setEnq i (.tryGet a s)) :=
    h.setEnq hins (by rw [he]; rfl) (by rw [he]; rfl) (by rw [he]; rfl)
  refine ⟨hstep.producer, hstep.consumer, ⟨?_, hstep.pool.nodup, hstep.pool.block,
    hstep.pool.raw⟩⟩
  intro b o ho
  rw [hstep.pool.idle b o ho]
  cases o with
  | pool =>
      simp only [ConcurrentQueue.Has, ConcurrentQueue.setEnq]
      omega
  | _ => exact Iff.rfl

theorem Good.tryGet {a : α} {s : Size} {b : BlockId} (h : Good v q)
    (he : q.enq i = .tryGet a s) (hmem : b ∈ q.freeList) :
    Good (v.acquire i b)
      ({ q with freeList := q.freeList.erase b }.setEnq i (.resetEmpty a s b)) := by
  have hins := (h.producer i).enqueue
  rw [he] at hins
  have hb := (h.pool.idle b .free trivial).mpr hmem
  refine h.acquire rfl rfl rfl rfl hins (by rw [he]; rfl) (by rw [he]; rfl) hb (by nofun)
    (by nofun) (by nofun) ?_
  refine h.pool.pass rfl hb (by nofun) ?_ ?_ ?_ (h.pool.nodup.erase b)
    (fun _ _ _ => h.pool.block_of_fresh)
    (fun _ => h.pool.raw _ (by rw [hb]; trivial)) fun _ _ _ => rfl
  · intro b' x _ hx hx'
    cases x with
    | free => exact absurd rfl hx
    | fresh j =>
        have hji : j ≠ i := fun heq => hx' (congrArg _ heq)
        simp only [ConcurrentQueue.Has, ConcurrentQueue.setEnq, Function.update_of_ne hji]
    | _ => exact Iff.rfl
  · intro _ b'
    simp only [ConcurrentQueue.Has, ConcurrentQueue.setEnq, h.pool.nodup.mem_erase_iff]
    exact and_comm
  · intro _ b'
    simp only [ConcurrentQueue.Has, ConcurrentQueue.setEnq, Function.update_self, he,
      Enqueue.newBlock?]
    simp [eq_comm]

theorem Good.resetEmpty {a : α} {s : Size} {b : BlockId} (h : Good v q)
    (he : q.enq i = .resetEmpty a s b) :
    Good v ((q.setBlock b { q.blocks b with elementsCompletelyDequeued := 0 }).setEnq i
      (.publish a s b)) := by
  have hi := h.producer i
  have hins := hi.enqueue
  rw [he] at hins
  obtain ⟨hins, hb⟩ := hins
  have hother : ∀ b' x, v.owner b' = x → x ≠ .fresh i →
      Function.update q.blocks b { q.blocks b with elementsCompletelyDequeued := 0 } b' =
        q.blocks b' := by
    intro b' x hb' hx
    refine Function.update_of_ne ?_ ..
    rintro rfl
    exact hx (hb'.symm.trans hb)
  refine h.produce (Function.update_eq_self i q.producers).symm rfl rfl
    (Function.update_eq_self i v.subQueue).symm rfl ?_
    (fun b' j k _ hb' => ⟨hother b' _ hb' (by nofun), rfl⟩)
    (fun b' j hne hb' => ⟨hother b' _ hb' (by simpa using hne), rfl⟩) (fun c => .refl _ c)
    (fun _ ht => ht) (fun _ _ hb => hb) ?_
  · refine ⟨hi.counters, ?_, ?_, hins, hb, ?_⟩
    · have hindex := hi.index
      rw [he] at hindex
      exact { hindex with }
    · have hstorage := hi.storage
      rw [he] at hstorage
      have hframe := hstorage.frame fun b' k hb' =>
        ⟨hother b' (.block i k) hb' (by nofun), Eq.refl (v.owner b')⟩
      exact { hframe with }
    · simp only [ConcurrentQueue.setEnq, ConcurrentQueue.setBlock, Function.update_self]
  · refine h.pool.mono rfl (fun _ _ hk hp => ⟨hk, hp, rfl⟩) rfl rfl rfl ?_ (fun _ => rfl) ?_
    · intro j
      rcases eq_or_ne j i with rfl | hne
      · simp only [ConcurrentQueue.setEnq, Function.update_self, he]; rfl
      · simp only [ConcurrentQueue.setEnq, Function.update_of_ne hne]; rfl
    · intro b' _
      rcases eq_or_ne b' b with rfl | hne
      · simp only [ConcurrentQueue.setEnq, ConcurrentQueue.setBlock, Function.update_self]
      · simp only [ConcurrentQueue.setEnq, ConcurrentQueue.setBlock, Function.update_of_ne hne]

/-! ## Publishing it -/

/-- Block `b` is the next block of producer `i`. -/
def View.publish (v : View ι κ α) (i : ι) (b : BlockId) : View ι κ α :=
  let s := v.subQueue i
  { v with
    subQueue := Function.update v.subQueue i
      { s with count := s.count + 1
               block := Function.update s.block s.count b
               phase := Function.update s.phase s.count .inUse }
    owner := Function.update v.owner b (.block i s.count) }

omit [DecidableEq ι] in
/-- A block that is empty, and of which nothing is taken, is put behind the others. -/
theorem ProducerOk.publish {s : SubQueue κ α} {p : ImplicitProducer} {a : α} {e : Size}
    {blocks : BlockId → Block α} {owner : BlockId → Owner ι κ} {b : BlockId}
    (h : ProducerOk s p (.publish a e b) blocks owner i)
    (hraw : ∀ j < 32, (blocks b).elements j = none) :
    ProducerOk { s with
      count := s.count + 1
      block := Function.update s.block s.count b
      phase := Function.update s.phase s.count .inUse }
      { p.setValue e (some b) with tailBlock := some b } (.construct a) blocks
      (Function.update owner b (.block i s.count)) i := by
  obtain ⟨hins, hb, hzero⟩ := h.enqueue
  have hst := h.storage
  have hlength := h.counters.length
  have hqueued : ∀ j, s.status (32 * s.count + j) = .queued := fun j => by
    refine (h.counters.queued _).mpr ?_
    have := h.counters.sound.head_le_tail
    have := hins.boundary
    omega
  -- the blocks there are already keep their place
  have hold : ∀ k, k < s.count + 1 → k ≠ s.count → k < s.count := by
    intro k hk hne
    omega
  have hblock : ∀ k, k ≠ s.count → Function.update s.block s.count b k = s.block k :=
    fun k hne => Function.update_of_ne hne ..
  have hphase : ∀ k, k ≠ s.count → Function.update s.phase s.count .inUse k = s.phase k :=
    fun k hne => Function.update_of_ne hne ..
  have hother : ∀ k < s.count, s.phase k ≠ .freed → s.block k ≠ b := by
    intro k hk hp heq
    have hown := hst.owner k hk hp
    rw [heq, hb] at hown
    cases hown
  refine ⟨{ h.counters with }, ?_, ?_, ?_⟩
  · have htail := h.index.tail
    have hahead := h.index.ahead rfl
    constructor
    · show p.tail = slot (s.count + 1 + 31)
      exact htail.trans (slot_add _).symm
    · intro t
      simp only [ImplicitProducer.key_setValue]
      exact h.index.keys t
    · intro k hk
      simp only [ImplicitProducer.key_setValue]
      rcases eq_or_ne k s.count with rfl | hne
      · exact hahead
      · exact h.index.used k (hold k hk hne)
    · intro ha
      cases ha
  · have hbound := hins.boundary
    have hroom := hins.room
    constructor
    · show s.claims.tail ≤ 32 * (s.count + 1)
      omega
    · show 32 * (s.count + 1) ≤ s.claims.tail + 32
      omega
    · show 32 * (s.count + 1) ≤ s.claims.head + 64
      omega
    · intro k hk
      obtain rfl : s.count = k := Nat.succ.inj hk
      simp only [Function.update_self]
    · intro k hk hp
      dsimp only at hp ⊢
      rcases eq_or_ne k s.count with rfl | hne
      · rw [Function.update_self, hins.slot_eq]
        simp only [ImplicitProducer.setValue, Function.update_self]
      · rw [hphase k hne] at hp
        have hslot : slot k ≠ e := fun heq =>
          hins.vacant k (hold k hk hne) hp (heq.trans hins.slot_eq)
        simp only [ImplicitProducer.setValue, Function.update_of_ne hslot]
        rw [hblock k hne]
        exact hst.value k (hold k hk hne) hp
    · intro k hk hp
      dsimp only at hp ⊢
      rcases eq_or_ne k s.count with rfl | hne
      · rw [Function.update_self, Function.update_self]
      · rw [hphase k hne] at hp
        rw [hblock k hne, Function.update_of_ne (hother k (hold k hk hne) hp)]
        exact hst.owner k (hold k hk hne) hp
    · intro k hk hp
      dsimp only at hp ⊢
      rcases eq_or_ne k s.count with rfl | hne
      · rw [Function.update_self, hzero]
        exact (tally_eq_zero fun j _ => by rw [hqueued]; simp).symm
      · rw [hphase k hne] at hp
        rw [hblock k hne]
        exact hst.counter k (hold k hk hne) hp
    · intro k hk hp
      dsimp only at hp
      rcases eq_or_ne k s.count with rfl | hne
      · exact ⟨0, by decide, by rw [hqueued]; simp⟩
      · rw [hphase k hne] at hp
        exact hst.inUse k (hold k hk hne) hp
    · intro k hk hp
      dsimp only at hp
      rcases eq_or_ne k s.count with rfl | hne
      · rw [Function.update_self] at hp
        exact absurd rfl hp
      · rw [hphase k hne] at hp
        exact hst.drained k (hold k hk hne) hp
    · intro k hk hp j hj
      dsimp only at hp ⊢
      rcases eq_or_ne k s.count with rfl | hne
      · rw [Function.update_self, hraw j hj, SubQueue.cell, hqueued]
        refine (List.getElem?_eq_none ?_).symm
        simp only [Enqueue.pending, List.append_nil, hlength]
        omega
      · rw [hphase k hne] at hp
        rw [hblock k hne]
        exact hst.elements k (hold k hk hne) hp j hj
  · show s.claims.tail < 32 * (s.count + 1)
    have := hins.boundary
    omega

theorem Good.publish {a : α} {s : Size} {b : BlockId} (h : Good v q)
    (he : q.enq i = .publish a s b) :
    Good (v.publish i b)
      ((q.setProducer i { (q.producers i).setValue s (some b) with tailBlock := some b }).setEnq i
        (.construct a)) := by
  have hi := h.producer i
  rw [he] at hi
  obtain ⟨hins, hb, -⟩ := hi.enqueue
  have hraw := h.pool.raw b (by rw [hb]; trivial)
  have hother : ∀ b' x, v.owner b' = x → x ≠ .fresh i →
      (v.publish i b).owner b' = v.owner b' := by
    intro b' x hb' hx
    refine Function.update_of_ne ?_ ..
    rintro rfl
    exact hx (hb'.symm.trans hb)
  refine h.produce rfl rfl rfl rfl rfl (hi.publish hraw)
    (fun b' j k _ hb' => ⟨rfl, hother b' _ hb' (by simp)⟩)
    (fun b' j hne hb' => ⟨rfl, hother b' _ hb' (by simpa using hne)⟩) ?_ ?_
    (fun b' c hb' => (hother b' _ hb' (by simp)).trans hb') ?_
  · intro c
    exact { SubQueue.Keeps.refl (v.subQueue i) c with
      drained := fun k hk hp => (Function.update_of_ne (Nat.ne_of_lt hk) ..).trans hp
      count := Nat.le_succ _
      block := fun k hk => Function.update_of_ne (Nat.ne_of_lt hk) .. }
  · intro t ht
    simp only [ImplicitProducer.key_setValue]
    exact ht
  · refine h.pool.pass rfl hb (by simp) ?_ ?_ (fun hidle => hidle.elim) h.pool.nodup ?_
      (fun hidle => hidle.elim) fun _ _ _ => rfl
    · intro b' x _ hx _
      cases x with
      | fresh j =>
          have hji : j ≠ i := fun heq => hx (congrArg _ heq)
          simp only [ConcurrentQueue.Has, ConcurrentQueue.setEnq, Function.update_of_ne hji]
          rfl
      | _ => exact Iff.rfl
    · intro _ b'
      simp only [ConcurrentQueue.Has, ConcurrentQueue.setEnq, Function.update_self, he,
        Enqueue.newBlock?]
      simp [eq_comm]
    · intro b' j k hb'
      rcases eq_or_ne b' b with rfl | hne
      · simp only [View.publish, Function.update_self] at hb'
        cases hb'
        simp only [View.publish, Function.update_self]
        exact ⟨Nat.lt_succ_self _, by simp, trivial⟩
      · simp only [View.publish, Function.update_of_ne hne] at hb'
        obtain ⟨hk, hp, hblock⟩ := h.pool.block b' j k hb'
        rcases eq_or_ne j i with rfl | hji
        · simp only [View.publish, Function.update_self,
            Function.update_of_ne (Nat.ne_of_lt hk)]
          exact ⟨Nat.lt_succ_of_lt hk, hp, hblock⟩
        · simp only [View.publish, Function.update_of_ne hji]
          exact ⟨hk, hp, hblock⟩

/-! ## The element -/

/-- Producer `i` has one element more. -/
def View.push (v : View ι κ α) (i : ι) (a : α) : View ι κ α :=
  let s := v.subQueue i
  { v with
    subQueue := Function.update v.subQueue i
      { s with claims := s.claims.produce, items := s.items ++ [a] } }

/-- The tail block is the one the element goes to. -/
theorem Good.construct {a : α} (h : Good v q) (he : q.enq i = .construct a) :
    ∃ b, (q.producers i).tailBlock = some b ∧
      Good v ((q.setBlock b ((q.blocks b).setElement (pos (q.producers i).tailIndex)
        (some a))).setEnq i (.storeTailIndex a)) := by
  have hi := h.producer i
  rw [he] at hi
  have hst := hi.storage
  have hlt : (v.subQueue i).claims.tail < 32 * (v.subQueue i).count := hi.enqueue
  have hbound := hst.le_tail
  have hcount : (v.subQueue i).count = (v.subQueue i).claims.tail / 32 + 1 := by omega
  have hk : (v.subQueue i).claims.tail / 32 < (v.subQueue i).count := by omega
  have hmod : (v.subQueue i).claims.tail % 32 < 32 := Nat.mod_lt _ (by decide)
  have hqueued := (hi.counters.queued _).mpr hi.counters.sound.head_le_tail
  have hfree : (v.subQueue i).phase ((v.subQueue i).claims.tail / 32) ≠ .freed := by
    rw [hst.inUse_of_ne_gone hk (by rw [hqueued]; nofun)]
    nofun
  have hown := hst.owner _ hk hfree
  have hpos : pos (q.producers i).tailIndex = (v.subQueue i).claims.tail % 32 := by
    rw [hi.counters.tailIndex, pos_word]
  have hlength := hi.counters.length
  refine ⟨_, hst.tailBlock _ hcount, h.produce (Function.update_eq_self i q.producers).symm rfl rfl
    (Function.update_eq_self i v.subQueue).symm rfl ?_
    (fun b' j k hne hb' => update_blocks hown hb' (by simp [hne]))
    (fun b' j hne hb' => update_blocks hown hb' (by nofun)) (fun c => .refl _ c) (fun _ ht => ht)
    (fun _ _ hb => hb) ?_⟩
  · refine ⟨hi.counters, { hi.index with }, ?_, hlt⟩
    rw [hpos]
    exact { hst with
      counter := fun k hk' hp => by
        refine Eq.trans ?_ (hst.counter k hk' hp)
        simp only [ConcurrentQueue.setEnq, ConcurrentQueue.setBlock]
        by_cases heq : (v.subQueue i).block k =
            (v.subQueue i).block ((v.subQueue i).claims.tail / 32)
        · rw [heq, Function.update_self]
          rfl
        · rw [Function.update_of_ne heq]
      elements := fun k hk' hp j hj => by
        have hold := hst.elements k hk' hp j hj
        simp only [SubQueue.cell, ConcurrentQueue.setEnq, ConcurrentQueue.setBlock,
          Enqueue.pending] at hold ⊢
        rcases eq_or_ne (32 * k + j) (v.subQueue i).claims.tail with heq | hne
        · -- the new element, which is the last one
          obtain ⟨rfl, rfl⟩ : k = (v.subQueue i).claims.tail / 32 ∧
            j = (v.subQueue i).claims.tail % 32 := by omega
          rw [heq, Function.update_self, hqueued, ← hlength]
          simp only [Block.setElement, Function.update_self]
          exact List.getElem?_concat_length.symm
        · have hitem : ((v.subQueue i).items ++ [a])[32 * k + j]? =
              ((v.subQueue i).items ++ [])[32 * k + j]? := by
            rw [List.append_nil]
            rcases Nat.lt_or_ge (32 * k + j) (v.subQueue i).items.length with hlt | hge
            · exact List.getElem?_append_left hlt
            · rw [List.getElem?_eq_none hge, List.getElem?_eq_none]
              rw [List.length_append, List.length_singleton]
              omega
          rw [hitem, ← hold]
          rcases eq_or_ne k ((v.subQueue i).claims.tail / 32) with rfl | hkn
          · rw [Function.update_self]
            exact Function.update_of_ne (by omega) ..
          · rw [Function.update_of_ne fun heq =>
              hkn (hst.block_injective hk' hp hk hfree heq)] }
  · refine h.pool.mono rfl (fun _ _ hk hp => ⟨hk, hp, rfl⟩) rfl rfl rfl ?_ (fun _ => rfl) ?_
    · intro j
      rcases eq_or_ne j i with rfl | hne
      · simp only [ConcurrentQueue.setEnq, Function.update_self, he]; rfl
      · simp only [ConcurrentQueue.setEnq, Function.update_of_ne hne]; rfl
    · intro b' hidle
      refine congrArg Block.elements (Function.update_of_ne ?_ ..)
      rintro rfl
      rw [hown] at hidle
      exact hidle

theorem Good.storeTailIndex {a : α} (h : Good v q) (he : q.enq i = .storeTailIndex a) :
    Good (v.push i a)
      ((q.setProducer i { q.producers i with
        tailIndex := (q.producers i).tailIndex + 1#64 }).setEnq i (.idle (some true))) := by
  have hi := h.producer i
  rw [he] at hi
  have hlt : (v.subQueue i).claims.tail < 32 * (v.subQueue i).count := hi.enqueue
  refine h.produce rfl rfl rfl rfl rfl ?_ (fun _ _ _ _ _ => ⟨rfl, rfl⟩)
    (fun _ _ _ _ => ⟨rfl, rfl⟩) ?_ (fun _ ht => ht) (fun _ _ hb => hb) ?_
  · refine ⟨?_, { hi.index with }, ?_, ?_⟩
    · exact { hi.counters with
        tailIndex := by
          show (q.producers i).tailIndex + 1#64 = word ((v.subQueue i).claims.tail + 1)
          rw [word_succ, hi.counters.tailIndex]
        sound := hi.counters.sound.produce
        length := by
          rw [List.length_append, List.length_singleton, hi.counters.length]
          rfl }
    · exact { hi.storage with
        tail_le := hlt
        le_tail := Nat.le_trans hi.storage.le_tail (Nat.add_le_add_right (Nat.le_succ _) _)
        elements := fun k hk hp j hj => by
          refine (hi.storage.elements k hk hp j hj).trans ?_
          simp only [SubQueue.cell, Enqueue.pending, List.append_nil] }
    · show 32 * (v.subQueue i).count < (v.subQueue i).claims.tail + 1 + 32
      have := hi.storage.le_tail
      omega
  · intro c
    exact { SubQueue.Keeps.refl (v.subQueue i) c with items := List.prefix_append _ _ }
  · refine h.pool.mono rfl ?_ rfl rfl rfl ?_ (fun _ => rfl) fun _ _ => rfl
    · intro j k hk hp
      rcases eq_or_ne j i with rfl | hne
      · simp only [View.push, Function.update_self]
        exact ⟨hk, hp, trivial⟩
      · simp only [View.push, Function.update_of_ne hne]
        exact ⟨hk, hp, trivial⟩
    · intro j
      rcases eq_or_ne j i with rfl | hne
      · simp only [ConcurrentQueue.setEnq, Function.update_self, he]; rfl
      · simp only [ConcurrentQueue.setEnq, Function.update_of_ne hne]; rfl

end Rtlog.Queue
