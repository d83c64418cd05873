/-
# `Rtlog.Queue.Capacity` — what the queue holds, and what holds it up

Three bounds on what may be in the queue, whatever the interleaving:

    one lane                `MAX_SUBQUEUE_SIZE` elements                 `lane_le`
    the blocks, at rest     each in one place: the rest of the pool,     `blocks_conserved`
                            the free list, or a lane, from the block
                            with its head to the one with its tail
    the blocks, when `n` producers are within a block and there are      `starved`
    `n` blocks              none for anybody else

The last is what a small initial pool means: a producer keeps the block its tail is in,
even when everything in it has been taken.  With one consumer they hold of every run, however
long (`capacity_serial`).
-/
import Rtlog.Queue.Serial

namespace Rtlog.Queue

variable {ι κ α : Type} {v : View ι κ α} {q q' : ConcurrentQueue ι κ α} {i : ι}

/-! ## One lane -/

section Reached

variable [DecidableEq κ]

theorem Good.lane_le (h : Good v q) (i : ι) :
    ((q.producers i).tailIndex - (q.producers i).headIndex).toNat ≤ maxSubqueueSize.toNat := by
  have hi := h.producer i
  have hle := hi.counters.sound.head_le_tail
  have htail := hi.storage.tail_le
  have hhead := hi.storage.le_head
  rw [hi.counters.tailIndex, hi.counters.headIndex, Circular.toNat_sub_of_le hle (by omega),
    maxSubqueueSize_eq]
  simp only [BitVec.reduceToNat]
  omega

/-- What `full` asks is how many elements there are. -/
theorem Good.full_iff (h : Good v q) (i : ι) : (q.producers i).full = true ↔
    (maxSubqueueSize - blockSize).toNat <
      ((q.producers i).tailIndex - (q.producers i).headIndex).toNat := by
  have hi := h.producer i
  have hle := hi.counters.sound.head_le_tail
  have htail := hi.storage.tail_le
  have hhead := hi.storage.le_head
  have hmax : (maxSubqueueSize - blockSize).toNat = 32 := rfl
  rw [hi.counters.tailIndex, hi.counters.headIndex, Circular.toNat_sub_of_le hle (by omega), hmax,
    ← Bool.not_eq_false, hi.full_eq_false]
  omega

/-! ## The blocks at rest -/

/-- No thread is inside an operation. -/
structure ConcurrentQueue.Quiescent (q : ConcurrentQueue ι κ α) : Prop where
  enq : ∀ i, ∃ last, q.enq i = .idle last
  deq : ∀ c, ∃ last, q.deq c = .idle last

/-- The blocks that can still be had. -/
def ConcurrentQueue.available (q : ConcurrentQueue ι κ α) : Nat :=
  (q.initialBlockPoolSize - q.initialBlockPoolIndex) + q.freeList.length

/-- The blocks from the one with the head to the one with the tail. -/
def ImplicitProducer.reach (p : ImplicitProducer) : Nat :=
  (pos p.headIndex + (p.tailIndex - p.headIndex).toNat + (blockSize.toNat - 1)) / blockSize.toNat

/-- At rest what was claimed is gone, and what was passed is freed. -/
theorem Good.phase_iff (h : Good v q) (hheld : Held v q) (hq : q.Quiescent) {k : Nat}
    (hk : k < (v.subQueue i).count) :
    (v.subQueue i).phase k ≠ .freed ↔ (v.subQueue i).claims.head / 32 ≤ k := by
  have hi := h.producer i
  have hnone : ∀ c, (q.deq c).stage = .none := fun c => by
    obtain ⟨last, hc⟩ := hq.deq c
    rw [hc]
    rfl
  constructor
  · intro hp
    by_contra hlt
    have hgone : ∀ j < 32, (v.subQueue i).status (32 * k + j) = .gone := by
      intro j hj
      cases hst : (v.subQueue i).status (32 * k + j) with
      | queued =>
          have := (hi.counters.queued _).mp hst
          omega
      | claimed c => exact absurd hst (hheld.not_marked (hnone c) i _ .claimed)
      | taken c => exact absurd hst (hheld.not_marked (hnone c) i _ .taken)
      | gone => rfl
    cases hph : (v.subQueue i).phase k with
    | freed => exact hp hph
    | drained c => exact hheld.not_marked (hnone c) i k .drained hph
    | inUse =>
        obtain ⟨j, hj, hne⟩ := hi.storage.inUse k hk hph
        exact hne (hgone j hj)
  · intro hle
    have hqueued := (hi.counters.queued (32 * k + 31)).mpr (by omega)
    have huse := hi.storage.inUse_of_ne_gone (n := 32 * k + 31) (by omega)
      (by rw [hqueued]; nofun)
    rw [show (32 * k + 31) / 32 = k by omega] at huse
    rw [huse]
    nofun

theorem Good.reach_eq (h : Good v q) (hq : q.Quiescent) (i : ι) :
    (q.producers i).reach = (v.subQueue i).count - (v.subQueue i).claims.head / 32 := by
  have hi := h.producer i
  have hle := hi.counters.sound.head_le_tail
  have htail := hi.storage.tail_le
  have hhead := hi.storage.le_head
  have hidle := hi.enqueue
  obtain ⟨last, he⟩ := hq.enq i
  rw [he] at hidle
  have hidle : 32 * (v.subQueue i).count < (v.subQueue i).claims.tail + 32 := hidle
  rw [ImplicitProducer.reach, hi.counters.tailIndex, hi.counters.headIndex,
    Circular.toNat_sub_of_le hle (by omega), pos_word, blockSize]
  simp only [BitVec.reduceToNat]
  omega

/-- The blocks of producer `i` that are in use at rest. -/
def View.blocks (v : View ι κ α) (i : ι) : Finset BlockId :=
  (Finset.Ico ((v.subQueue i).claims.head / 32) (v.subQueue i).count).image (v.subQueue i).block

theorem Good.mem_blocks_iff (h : Good v q) (hheld : Held v q) (hq : q.Quiescent) {b : BlockId} :
    b ∈ v.blocks i ↔ ∃ k, v.owner b = .block i k := by
  simp only [View.blocks, Finset.mem_image, Finset.mem_Ico]
  constructor
  · rintro ⟨k, ⟨hle, hk⟩, rfl⟩
    exact ⟨k, (h.producer i).storage.owner k hk ((h.phase_iff hheld hq hk).mpr hle)⟩
  · rintro ⟨k, hb⟩
    obtain ⟨hk, hp, rfl⟩ := h.pool.block b i k hb
    exact ⟨k, ⟨(h.phase_iff hheld hq hk).mp hp, hk⟩, rfl⟩

theorem Good.card_blocks (h : Good v q) (hheld : Held v q) (hq : q.Quiescent) (i : ι) :
    (v.blocks i).card = (q.producers i).reach := by
  rw [View.blocks, Finset.card_image_of_injOn, Nat.card_Ico, h.reach_eq hq i]
  intro j hj k hk heq
  obtain ⟨hlj, hj⟩ := Finset.mem_Ico.mp hj
  obtain ⟨hlk, hk⟩ := Finset.mem_Ico.mp hk
  exact (h.producer i).storage.block_injective hj ((h.phase_iff hheld hq hj).mpr hlj) hk
    ((h.phase_iff hheld hq hk).mpr hlk) heq

/-- At rest a block is in the pool, free, or with a producer. -/
theorem Good.owner_cases (h : Good v q) (hq : q.Quiescent) (b : BlockId) :
    v.owner b = .pool ∨ v.owner b = .free ∨ ∃ i k, v.owner b = .block i k := by
  cases hb : v.owner b with
  | pool => exact .inl rfl
  | free => exact .inr (.inl rfl)
  | block i k => exact .inr (.inr ⟨i, k, rfl⟩)
  | fresh i =>
      have hhas := (h.pool.idle b (.fresh i) trivial).mp hb
      obtain ⟨last, he⟩ := hq.enq i
      rw [ConcurrentQueue.Has, he] at hhas
      cases hhas
  | retired c =>
      have hhas := (h.pool.idle b (.retired c) trivial).mp hb
      obtain ⟨last, hd⟩ := hq.deq c
      rw [ConcurrentQueue.Has, hd] at hhas
      cases hhas

/-- A block that has left the pool was one of the pool's. -/
theorem Good.lt_poolSize (h : Good v q) {b : BlockId} (hb : v.owner b ≠ .pool) :
    q.initialBlockPoolIndex > b ∧ b < q.initialBlockPoolSize := by
  have hnot := mt (h.pool.idle b .pool trivial).mpr hb
  simp only [ConcurrentQueue.Has, not_or, Nat.not_le] at hnot
  exact hnot

/-- At rest every block is accounted for. -/
theorem Good.available_add [Fintype ι] (h : Good v q) (hheld : Held v q) (hq : q.Quiescent) :
    q.available + ∑ i, (q.producers i).reach = q.initialBlockPoolSize := by
  classical
  have hdisj : ((Finset.univ : Finset ι) : Set ι).PairwiseDisjoint v.blocks := by
    intro i _ j _ hij
    refine Finset.disjoint_left.mpr fun b hi hj => hij ?_
    obtain ⟨k, hk⟩ := (h.mem_blocks_iff hheld hq).mp hi
    obtain ⟨l, hl⟩ := (h.mem_blocks_iff hheld hq).mp hj
    cases hk.symm.trans hl
    rfl
  have hmem : ∀ b, b ∈ Finset.univ.biUnion v.blocks ↔ ∃ i k, v.owner b = .block i k := by
    intro b
    simp only [Finset.mem_biUnion, Finset.mem_univ, true_and, h.mem_blocks_iff hheld hq]
  have hfree : ∀ b, b ∈ q.freeList.toFinset ↔ v.owner b = .free := fun b => by
    rw [List.mem_toFinset]
    exact (h.pool.idle b .free trivial).symm
  have hused : q.freeList.toFinset ∪ Finset.univ.biUnion v.blocks =
      Finset.range (min q.initialBlockPoolIndex q.initialBlockPoolSize) := by
    ext b
    rw [Finset.mem_union, hfree, hmem, Finset.mem_range, lt_min_iff]
    constructor
    · rintro (hb | ⟨i, k, hb⟩)
      · exact h.lt_poolSize (by rw [hb]; nofun)
      · exact h.lt_poolSize (by rw [hb]; nofun)
    · rintro ⟨hidx, hsize⟩
      rcases h.owner_cases hq b with hb | hb
      · rcases (h.pool.idle b .pool trivial).mp hb with hle | hle
        · exact absurd hidx (Nat.not_lt.mpr hle)
        · exact absurd hsize (Nat.not_lt.mpr hle)
      · exact hb
  have hsep : Disjoint q.freeList.toFinset (Finset.univ.biUnion v.blocks) := by
    refine Finset.disjoint_left.mpr fun b hb hb' => ?_
    obtain ⟨i, k, hk⟩ := (hmem b).mp hb'
    rw [(hfree b).mp hb] at hk
    cases hk
  have hcard := congrArg Finset.card hused
  rw [Finset.card_union_of_disjoint hsep, List.toFinset_card_of_nodup h.pool.nodup,
    Finset.card_biUnion hdisj, Finset.card_range,
    Finset.sum_congr rfl fun i _ => h.card_blocks hheld hq i] at hcard
  rw [ConcurrentQueue.available]
  omega

/-! ## Where the blocks are -/

/-- The block of the index that is `k` blocks after the head, as `dequeue` looks it up. -/
def ImplicitProducer.blockAt (p : ImplicitProducer) (k : Nat) : Option BlockId :=
  (p.index (indexIndex (p.headIndex + word (32 * k)) p.tail (p.index p.tail).key)).value

/-- Where a block may be at rest. -/
inductive Place (ι : Type) where
  | pool
  | free
  | lane (i : ι) (k : Nat)

/-- Block `b` is there. -/
def ConcurrentQueue.At (q : ConcurrentQueue ι κ α) (b : BlockId) : Place ι → Prop
  | .pool => q.initialBlockPoolIndex ≤ b ∧ b < q.initialBlockPoolSize
  | .free => b ∈ q.freeList
  | .lane i k => k < (q.producers i).reach ∧ (q.producers i).blockAt k = some b

/-- Each of `blockCount` blocks is in one place, once, and nothing else is in any. -/
structure ConcurrentQueue.Conserved (q : ConcurrentQueue ι κ α) (blockCount : Nat) : Prop where
  place : ∀ b < blockCount, ∃! x, q.At b x
  bounded : ∀ b x, q.At b x → b < blockCount
  nodup : q.freeList.Nodup
  reached : ∀ i, ∀ k < (q.producers i).reach, ((q.producers i).blockAt k).isSome = true

/-- Who has the blocks that are there. -/
def View.ownerAt (v : View ι κ α) : Place ι → Owner ι κ
  | .pool => .pool
  | .free => .free
  | .lane i k => .block i ((v.subQueue i).claims.head / 32 + k)

omit [DecidableEq κ] in
theorem View.ownerAt_injective (v : View ι κ α) : Function.Injective v.ownerAt := by
  intro x y h
  cases x <;> cases y <;> simp only [View.ownerAt, reduceCtorEq, Owner.block.injEq] at h
  · rfl
  · rfl
  · obtain ⟨rfl, hk⟩ := h
    rw [Nat.add_left_cancel hk]

theorem Good.blockAt_eq (h : Good v q) (hheld : Held v q) (hq : q.Quiescent) {k : Nat}
    (hk : k < (q.producers i).reach) : (q.producers i).blockAt k =
      some ((v.subQueue i).block ((v.subQueue i).claims.head / 32 + k)) := by
  have hi := h.producer i
  rw [h.reach_eq hq i] at hk
  have hlt : (v.subQueue i).claims.head / 32 + k < (v.subQueue i).count := by omega
  have hphase := (h.phase_iff hheld hq hlt).mpr (Nat.le_add_right ..)
  have hindex : word (v.subQueue i).claims.head + word (32 * k) =
      word ((v.subQueue i).claims.head + 32 * k) := (BitVec.ofNat_add ..).symm
  -- the key at the tail may be of any block
  rcases hi.index.keys (q.producers i).tail with hinv | ⟨t, ht, hkey⟩
  · exact absurd hinv (hi.key_tail (Nat.lt_of_le_of_lt (Nat.zero_le _) hlt))
  · rw [ImplicitProducer.blockAt, hi.counters.headIndex, hindex, hkey, ht, indexIndex_eq,
      show ((v.subQueue i).claims.head + 32 * k) / 32 = (v.subQueue i).claims.head / 32 + k by
        omega]
    exact hi.storage.value _ hlt hphase

/-- At rest a block is where its owner is. -/
theorem Good.at_iff (h : Good v q) (hheld : Held v q) (hq : q.Quiescent) {b : BlockId}
    {x : Place ι} : q.At b x ↔ v.owner b = v.ownerAt x ∧ b < q.initialBlockPoolSize := by
  cases x with
  | pool =>
      have hpool := h.pool.idle b .pool trivial
      constructor
      · rintro ⟨hle, hlt⟩
        exact ⟨hpool.mpr (.inl hle), hlt⟩
      · rintro ⟨hb, hlt⟩
        exact ⟨(hpool.mp hb).resolve_right (Nat.not_le.mpr hlt), hlt⟩
  | free =>
      have hfree := h.pool.idle b .free trivial
      constructor
      · intro hmem
        have hb := hfree.mpr hmem
        exact ⟨hb, (h.lt_poolSize (by rw [hb]; nofun)).2⟩
      · rintro ⟨hb, -⟩
        exact hfree.mp hb
  | lane i k =>
      constructor
      · rintro ⟨hk, hb⟩
        have heq := h.blockAt_eq hheld hq hk
        rw [h.reach_eq hq i] at hk
        obtain rfl := Option.some.inj (heq.symm.trans hb)
        have hlt : (v.subQueue i).claims.head / 32 + k < (v.subQueue i).count := by omega
        have howner := (h.producer i).storage.owner _ hlt
          ((h.phase_iff hheld hq hlt).mpr (Nat.le_add_right ..))
        exact ⟨howner, (h.lt_poolSize (by rw [howner]; nofun)).2⟩
      · rintro ⟨hb, -⟩
        obtain ⟨hlt, -, rfl⟩ := h.pool.block b i _ hb
        have hk : k < (q.producers i).reach := by
          rw [h.reach_eq hq i]
          omega
        exact ⟨hk, h.blockAt_eq hheld hq hk⟩

theorem Good.conserved (h : Good v q) (hheld : Held v q) (hq : q.Quiescent) :
    q.Conserved q.initialBlockPoolSize where
  place b hb := by
    have hwhere : ∃ x, v.owner b = v.ownerAt x := by
      rcases h.owner_cases hq b with hown | hown | ⟨i, k, hown⟩
      · exact ⟨.pool, hown⟩
      · exact ⟨.free, hown⟩
      · obtain ⟨hk, hphase, -⟩ := h.pool.block b i k hown
        have hle := (h.phase_iff hheld hq hk).mp hphase
        exact ⟨.lane i (k - (v.subQueue i).claims.head / 32), by
          rw [hown, View.ownerAt, Nat.add_sub_cancel' hle]⟩
    obtain ⟨x, hx⟩ := hwhere
    refine ⟨x, (h.at_iff hheld hq).mpr ⟨hx, hb⟩, fun y hy => v.ownerAt_injective ?_⟩
    rw [← ((h.at_iff hheld hq).mp hy).1, hx]
  bounded _ _ hx := ((h.at_iff hheld hq).mp hx).2
  nodup := h.pool.nodup
  reached i k hk := by
    rw [h.blockAt_eq hheld hq hk]
    rfl

/-! ## A block each -/

/-- The tail of a producer is within a block. -/
def ImplicitProducer.Partial (p : ImplicitProducer) : Prop :=
  p.tailIndex &&& (blockSize - 1#64) ≠ 0#64

instance (p : ImplicitProducer) : Decidable p.Partial := inferInstanceAs (Decidable (_ ≠ _))

/-- It keeps that block. -/
theorem Good.partial_block (h : Good v q) (hp : (q.producers i).Partial) :
    ∃ b k, v.owner b = .block i k := by
  have hi := h.producer i
  have htail := hi.storage.tail_le
  rw [ImplicitProducer.Partial, hi.counters.tailIndex, ne_eq, word_and_mask_eq_zero] at hp
  have hlt : (v.subQueue i).claims.tail / 32 < (v.subQueue i).count := by omega
  have hqueued := (hi.counters.queued _).mpr hi.counters.sound.head_le_tail
  refine ⟨_, _, hi.storage.owner _ hlt ?_⟩
  rw [hi.storage.inUse_of_ne_gone hlt (by rw [hqueued]; nofun)]
  nofun

/-- When as many producers as there are blocks are within one, nobody else has any. -/
theorem Good.mem_of_block (h : Good v q) {S : Finset ι} (hS : S.card = q.initialBlockPoolSize)
    (hp : ∀ i ∈ S, (q.producers i).Partial) {b : BlockId} (hb : v.owner b ≠ .pool) :
    ∃ i ∈ S, ∃ k, v.owner b = .block i k := by
  classical
  choose! f hf using fun i (hi : i ∈ S) => h.partial_block (hp i hi)
  have hinj : Set.InjOn f S := by
    intro i hi j hj heq
    obtain ⟨k, hk⟩ := hf i hi
    obtain ⟨l, hl⟩ := hf j hj
    rw [heq, hl] at hk
    cases hk
    rfl
  have hsub : S.image f ⊆ Finset.range q.initialBlockPoolSize := by
    intro b hb
    obtain ⟨i, hi, rfl⟩ := Finset.mem_image.mp hb
    obtain ⟨k, hk⟩ := hf i hi
    exact Finset.mem_range.mpr (h.lt_poolSize (by rw [hk]; nofun)).2
  have hall := Finset.eq_of_subset_of_card_le hsub
    (by rw [Finset.card_range, Finset.card_image_of_injOn hinj, hS])
  have hmem := Finset.mem_range.mpr (h.lt_poolSize hb).2
  rw [← hall] at hmem
  obtain ⟨i, hi, rfl⟩ := Finset.mem_image.mp hmem
  exact ⟨i, hi, hf i hi⟩

/-- ... so that it is not about to put an element in. -/
theorem Good.not_storeTailIndex (h : Good v q) {S : Finset ι}
    (hS : S.card = q.initialBlockPoolSize) (hp : ∀ i ∈ S, (q.producers i).Partial) {j : ι}
    (hj : j ∉ S) (a : α) : q.enq j ≠ .storeTailIndex a := by
  intro he
  have hi := h.producer j
  have henq := hi.enqueue
  rw [he] at henq
  have hlt : (v.subQueue j).claims.tail < 32 * (v.subQueue j).count := henq
  have hqueued := (hi.counters.queued _).mpr hi.counters.sound.head_le_tail
  have hblock : (v.subQueue j).claims.tail / 32 < (v.subQueue j).count := by omega
  have hown := hi.storage.owner _ hblock (by
    rw [hi.storage.inUse_of_ne_gone hblock (by rw [hqueued]; nofun)]
    nofun)
  obtain ⟨i, hiS, k, hk⟩ := h.mem_of_block hS hp (by rw [hown]; nofun)
  rw [hown] at hk
  cases hk
  exact hj hiS

end Reached

/-! ## Whole runs -/

variable [DecidableEq ι] [DecidableEq κ] {act : Action ι κ α}

theorem ConcurrentQueue.step_poolSize (hs : q.step act = some q') :
    q'.initialBlockPoolSize = q.initialBlockPoolSize := by
  cases act with
  | tryEnqueue i a =>
      simp only [ConcurrentQueue.step] at hs
      split at hs <;> cases hs
      rfl
  | tryDequeue c i =>
      simp only [ConcurrentQueue.step] at hs
      split at hs <;> cases hs
      rfl
  | tryGet i got =>
      simp only [ConcurrentQueue.step, ConcurrentQueue.tryGetStep] at hs
      split at hs
      · cases hs; rfl
      · split at hs <;> cases hs; rfl
      · cases hs
  | enqueue i =>
      simp only [ConcurrentQueue.step, ConcurrentQueue.enqueueStep] at hs
      split at hs
      all_goals first
        | (cases hs <;> rfl)
        | (split at hs <;> cases hs <;> rfl)
  | dequeue c =>
      simp only [ConcurrentQueue.step, ConcurrentQueue.dequeueStep] at hs
      split at hs
      all_goals first
        | (cases hs <;> rfl)
        | (split at hs <;> cases hs <;> rfl)

theorem ConcurrentQueue.run_poolSize {as : List (Action ι κ α)}
    (hrun : ConcurrentQueue.machine.run q as = some q') :
    q'.initialBlockPoolSize = q.initialBlockPoolSize :=
  Machine.run_invariant (I := fun x => x.initialBlockPoolSize = q.initialBlockPoolSize)
    (fun _ _ _ hI hs => (ConcurrentQueue.step_poolSize hs).trans hI) rfl hrun

section Runs

variable {blockCount : Nat} {blockIndex : ι → Bool} {value : ι → Size → Option BlockId}
  {as : List (Action ι κ α)}

theorem Good.reached
    (hw : ConcurrentQueue.machine.Along (fun q _ _ => q.Within)
      (.initial blockCount blockIndex value) as)
    (hrun : ConcurrentQueue.machine.run (.initial blockCount blockIndex value) as = some q) :
    ∃ v : View ι κ α, Good v q ∧ Held v q := by
  obtain ⟨v, -, h⟩ := (Good.initial blockCount blockIndex value).run .start hw hrun
  exact ⟨v, h⟩

/-- A lane has at most `MAX_SUBQUEUE_SIZE` elements, and at the end of a block a producer is
refused for it exactly when it has more than that less a block. -/
theorem lane_bounded
    (hw : ConcurrentQueue.machine.Along (fun q _ _ => q.Within)
      (.initial blockCount blockIndex value) as)
    (hrun : ConcurrentQueue.machine.run (.initial blockCount blockIndex value) as = some q)
    (i : ι) :
    ((q.producers i).tailIndex - (q.producers i).headIndex).toNat ≤ maxSubqueueSize.toNat ∧
      ((q.producers i).full = true ↔ (maxSubqueueSize - blockSize).toNat <
        ((q.producers i).tailIndex - (q.producers i).headIndex).toNat) := by
  obtain ⟨v, h, -⟩ := Good.reached hw hrun
  exact ⟨h.lane_le i, h.full_iff i⟩

theorem lane_bounded_race : ∃ q : ConcurrentQueue Unit Bool Nat,
    ConcurrentQueue.machine.run (.initial 2 (fun _ => true) fun _ _ => none) (race.take 11) =
      some q ∧ ((q.producers ()).tailIndex - (q.producers ()).headIndex).toNat ≤ 64 := by
  have hsome : (ConcurrentQueue.machine.run (.initial 2 (fun _ => true) fun _ _ => none)
      (race.take 11)).isSome = true := by decide +kernel
  obtain ⟨q, hrun⟩ := Option.isSome_iff_exists.mp hsome
  exact ⟨q, hrun, (lane_bounded (by decide +kernel) hrun ()).1⟩

/-- At rest no block is lost and none is in two places: each is in the rest of the pool, on
the free list, or the one that a lane has at some distance from its head; and those that can
be had, and those that the lanes reach into, are together as many as the pool had. -/
theorem blocks_conserved [Fintype ι]
    (hw : ConcurrentQueue.machine.Along (fun q _ _ => q.Within)
      (.initial blockCount blockIndex value) as)
    (hrun : ConcurrentQueue.machine.run (.initial blockCount blockIndex value) as = some q)
    (hq : q.Quiescent) :
    q.Conserved blockCount ∧ q.available + ∑ i, (q.producers i).reach = blockCount := by
  obtain ⟨v, h, hheld⟩ := Good.reached hw hrun
  have hsize : q.initialBlockPoolSize = blockCount := ConcurrentQueue.run_poolSize hrun
  exact ⟨hsize ▸ h.conserved hheld hq, (h.available_add hheld hq).trans hsize⟩

theorem quiescent_race : ∃ q : ConcurrentQueue Unit Bool Nat,
    ConcurrentQueue.machine.run (.initial 2 (fun _ => true) fun _ _ => none) race = some q ∧
      q.Quiescent := by
  have hplaces : (ConcurrentQueue.machine.run (.initial 2 (fun _ => true) fun _ _ => none)
      race).map (fun q => (q.enq (), q.deq true, q.deq false)) =
      some (.idle (some true), .idle (some (some 7)), .idle (some none)) := by decide +kernel
  obtain ⟨q, hrun, hq⟩ := Option.map_eq_some_iff.mp hplaces
  obtain ⟨henq, hdeq⟩ := Prod.mk.inj hq
  refine ⟨q, hrun, fun _ => ⟨_, henq⟩, fun c => ?_⟩
  cases c
  · exact ⟨_, (Prod.mk.inj hdeq).2⟩
  · exact ⟨_, (Prod.mk.inj hdeq).1⟩

theorem blocks_conserved_race : ∃ q : ConcurrentQueue Unit Bool Nat,
    ConcurrentQueue.machine.run (.initial 2 (fun _ => true) fun _ _ => none) race = some q ∧
      q.Conserved 2 ∧ q.available + ∑ i, (q.producers i).reach = 2 := by
  obtain ⟨q, hrun, hq⟩ := quiescent_race
  exact ⟨q, hrun, blocks_conserved (by decide +kernel) hrun hq⟩

omit [DecidableEq κ] in
/-- An element is put in by the step that stores the tail index. -/
theorem pushed_event {j : ι} (h : ∀ a, q.enq j ≠ .storeTailIndex a) :
    LaneQueue.pushed j (event q act q').toList = [] := by
  cases act with
  | enqueue i =>
      cases he : q.enq i with
      | storeTailIndex a =>
          have hne : i ≠ j := by
            rintro rfl
            exact h a he
          simp [event, he, LaneQueue.pushed, hne]
      | _ => simp [event, he, LaneQueue.pushed]
  | dequeue c =>
      cases hd : q.deq c with
      | fetchHead i => cases hf : q.front i <;> simp [event, hd, hf, LaneQueue.pushed]
      | _ => cases hr : (q'.deq c).answer? <;> simp [event, hd, hr, LaneQueue.pushed]
  | _ => rfl

theorem Good.pushed_eq_nil {bs : List (Action ι κ α)} {S : Finset ι} {j : ι} (h : Good v q)
    (hw : ConcurrentQueue.machine.Along (fun q _ _ => q.Within) q bs)
    (hS : S.card = q.initialBlockPoolSize) (hj : j ∉ S)
    (hparts : ConcurrentQueue.machine.Along (fun q _ _ => ∀ i ∈ S, (q.producers i).Partial)
      q bs) (hrun : ConcurrentQueue.machine.run q bs = some q') :
    LaneQueue.pushed j (ConcurrentQueue.machine.trace event q bs) = [] := by
  induction bs generalizing q v with
  | nil => rfl
  | cons act bs ih =>
      obtain ⟨q₁, hs, hrun⟩ := (Machine.run_cons_eq_some _).mp hrun
      obtain ⟨hpart, hparts⟩ := hparts q₁ hs
      obtain ⟨hwithin, hw⟩ := hw q₁ hs
      obtain ⟨v₁, -, h₁, -⟩ := h.step hwithin hs
      rw [Machine.trace_cons hs, LaneQueue.pushed_append,
        pushed_event (h.not_storeTailIndex hS hpart hj), List.nil_append]
      exact ih h₁ hw (hS.trans (ConcurrentQueue.step_poolSize hs).symm) hparts hrun

/-- While as many producers as there are blocks stay within one, nobody else puts anything
in, however empty the queue is. -/
theorem starved {bs : List (Action ι κ α)} {S : Finset ι} {j : ι}
    (hw : ConcurrentQueue.machine.Along (fun q _ _ => q.Within)
      (.initial blockCount blockIndex value) (as ++ bs))
    (hrun : ConcurrentQueue.machine.run (.initial blockCount blockIndex value) as = some q)
    (hS : S.card = blockCount) (hj : j ∉ S)
    (hparts : ConcurrentQueue.machine.Along (fun q _ _ => ∀ i ∈ S, (q.producers i).Partial)
      q bs) (hrun' : ConcurrentQueue.machine.run q bs = some q') :
    LaneQueue.pushed j (ConcurrentQueue.machine.trace event q bs) = [] := by
  obtain ⟨v, h, -⟩ := Good.reached hw.of_append hrun
  have hsize := ConcurrentQueue.run_poolSize hrun
  exact h.pushed_eq_nil (hw.drop_append hrun) (hS.trans hsize.symm) hj hparts hrun'

end Runs

/-- One block, which producer `true` keeps; producer `false` finds none. -/
def hogged : List (Action Bool Unit Nat) :=
  .tryEnqueue true 7 :: List.replicate 10 (.enqueue true)

def refused : List (Action Bool Unit Nat) :=
  .tryEnqueue false 8 :: List.replicate 5 (.enqueue false) ++
    [.tryGet false none, .enqueue false, .enqueue false]

theorem runs_refused : ∃ q q' : ConcurrentQueue Bool Unit Nat,
    ConcurrentQueue.machine.run (.initial 1 (fun _ => true) fun _ _ => none) hogged = some q ∧
      ConcurrentQueue.machine.run q refused = some q' ∧ q.Quiescent ∧
      ConcurrentQueue.machine.Along (fun q _ _ => ∀ i ∈ ({true} : Finset Bool),
        (q.producers i).Partial) q refused := by
  have hplaces : ((ConcurrentQueue.machine.run (.initial 1 (fun _ => true) fun _ _ => none)
      hogged).map fun q => (q.enq true, q.enq false, q.deq (),
        (ConcurrentQueue.machine.run q refused).isSome)) =
      some (.idle (some true), .idle none, .idle none, true) := by decide +kernel
  obtain ⟨q, hrun, hq⟩ := Option.map_eq_some_iff.mp hplaces
  simp only [Prod.mk.injEq] at hq
  obtain ⟨htrue, hfalse, hdeq, hsome⟩ := hq
  obtain ⟨q', hrun'⟩ := Option.isSome_iff_exists.mp hsome
  refine ⟨q, q', hrun, hrun', ⟨fun i => ?_, fun _ => ⟨_, hdeq⟩⟩, ?_⟩
  · cases i
    · exact ⟨_, hfalse⟩
    · exact ⟨_, htrue⟩
  · obtain rfl : (ConcurrentQueue.machine.run (.initial 1 (fun _ => true) fun _ _ => none)
        hogged).get (by decide +kernel) = q := Option.get_of_eq_some _ hrun
    decide +kernel

theorem starved_refused : ∃ q q' : ConcurrentQueue Bool Unit Nat,
    ConcurrentQueue.machine.run (.initial 1 (fun _ => true) fun _ _ => none) hogged = some q ∧
      ConcurrentQueue.machine.run q refused = some q' ∧
      LaneQueue.pushed false (ConcurrentQueue.machine.trace event q refused) = [] := by
  obtain ⟨q, q', hrun, hrun', -, hparts⟩ := runs_refused
  exact ⟨q, q', hrun, hrun', starved (S := {true}) (by decide +kernel) hrun rfl (by decide)
    hparts hrun'⟩

/-- With one consumer there is nothing to ask of the counters. -/
theorem capacity_serial [Fintype ι] (blockCount : Nat) (blockIndex : ι → Bool)
    (value : ι → Size → Option BlockId) {as : List (Action ι Unit α)}
    {q : ConcurrentQueue ι Unit α}
    (hrun : ConcurrentQueue.machine.run (.initial blockCount blockIndex value) as = some q) :
    (∀ i, ((q.producers i).tailIndex - (q.producers i).headIndex).toNat ≤
        maxSubqueueSize.toNat ∧ ((q.producers i).full = true ↔
          (maxSubqueueSize - blockSize).toNat <
            ((q.producers i).tailIndex - (q.producers i).headIndex).toNat)) ∧
      (q.Quiescent → q.Conserved blockCount ∧
        q.available + ∑ i, (q.producers i).reach = blockCount) ∧
      ∀ (S : Finset ι) (j : ι) (bs : List (Action ι Unit α)) (q' : ConcurrentQueue ι Unit α),
        S.card = blockCount → j ∉ S → ConcurrentQueue.machine.Along
          (fun q _ _ => ∀ i ∈ S, (q.producers i).Partial) q bs →
        ConcurrentQueue.machine.run q bs = some q' →
        LaneQueue.pushed j (ConcurrentQueue.machine.trace event q bs) = [] := by
  obtain ⟨v, h, hheld⟩ := Good.reached (serial_within blockCount blockIndex value as) hrun
  have hsize : q.initialBlockPoolSize = blockCount := ConcurrentQueue.run_poolSize hrun
  refine ⟨fun i => ⟨h.lane_le i, h.full_iff i⟩, fun hq => ?_, ?_⟩
  · exact ⟨hsize ▸ h.conserved hheld hq, (h.available_add hheld hq).trans hsize⟩
  · intro S j bs q' hS hj hparts hrun'
    have hw := (serial_within blockCount blockIndex value (as ++ bs)).drop_append hrun
    exact h.pushed_eq_nil hw (hS.trans hsize.symm) hj hparts hrun'

theorem capacity_serial_refused : ∃ q q' : ConcurrentQueue Bool Unit Nat,
    ConcurrentQueue.machine.run (.initial 1 (fun _ => true) fun _ _ => none) hogged = some q ∧
      ConcurrentQueue.machine.run q refused = some q' ∧
      ((q.producers true).tailIndex - (q.producers true).headIndex).toNat ≤ 64 ∧
      q.Conserved 1 ∧
      LaneQueue.pushed false (ConcurrentQueue.machine.trace event q refused) = [] := by
  obtain ⟨q, q', hrun, hrun', hq, hparts⟩ := runs_refused
  obtain ⟨hlane, hblocks, hstarved⟩ := capacity_serial 1 (fun _ => true) (fun _ _ => none) hrun
  exact ⟨q, q', hrun, hrun', (hlane true).1, (hblocks hq).1,
    hstarved {true} false refused q' rfl (by decide) hparts hrun'⟩

end Rtlog.Queue
