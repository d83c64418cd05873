/-
# `Rtlog.Queue.View` — what a state of the queue stands for

The words and pointers of a `ConcurrentQueue` are read against a `View`, which
has what the code does not keep: every element a producer has enqueued, numbered
from 0, what has become of each, which block is its `k`-th and what has become
of that, and who has each block of the initial pool.

An element, and a block, goes one way only:

    queued → claimed c → taken c → gone
    inUse → drained c → freed

where `c` is the consumer that has it in hand, so that no two consumers ever
have the same one.  Blocks go round:

    pool → fresh i → block i k → retired c → free → fresh j → …

`Good v q` says that `v` is a view of `q`.  It has three parts: what holds of
each producer with its blocks (`ProducerOk`), of each consumer (`DequeueOk`), and
of the blocks that are with neither (`PoolOk`).  `Good.initial` is the start; the
steps are in `Rtlog.Queue.Enqueuing`, `Rtlog.Queue.Claiming` and
`Rtlog.Queue.Emptying`.
-/
import Rtlog.Base.Claims
import Rtlog.Queue.Slots

namespace Rtlog.Queue

variable {ι κ α : Type}

/-! ## Views -/

/-- What has become of an element. -/
inductive ItemStatus (κ : Type) where
  | queued
  | claimed (c : κ)
  | taken (c : κ)
  | gone
  deriving DecidableEq

/-- It is still in its block. -/
def ItemStatus.present : ItemStatus κ → Bool
  | .queued | .claimed _ => true
  | .taken _ | .gone => false

/-- What has become of a block. -/
inductive Phase (κ : Type) where
  | inUse
  /-- Consumer `c` has emptied it, and has not cleared its entry. -/
  | drained (c : κ)
  | freed
  deriving DecidableEq

/-- Who has a block. -/
inductive Owner (ι κ : Type) where
  | pool
  | free
  /-- Producer `i` has got it and not yet put it into its index. -/
  | fresh (i : ι)
  /-- It is the `k`-th block of producer `i`. -/
  | block (i : ι) (k : Nat)
  /-- Consumer `c` has taken it out of an index, and not yet freed it. -/
  | retired (c : κ)

/-- What a producer's sub-queue stands for. -/
structure SubQueue (κ α : Type) where
  claims : Claims κ
  /-- Every element enqueued so far. -/
  items : List α
  status : Nat → ItemStatus κ
  /-- How many blocks were put into the index so far. -/
  count : Nat
  block : Nat → BlockId
  phase : Nat → Phase κ

structure View (ι κ α : Type) where
  subQueue : ι → SubQueue κ α
  owner : BlockId → Owner ι κ
  /-- What a consumer has claimed, and not yet returned. -/
  hand : κ → Option α

/-- The elements nobody has claimed, oldest first. -/
def SubQueue.lane (v : SubQueue κ α) : List α := v.items.drop v.claims.head

/-! ## Producers -/

/-- The element that is in place while its `tailIndex` is not stored. -/
def Enqueue.pending : Enqueue α → List α
  | .storeTailIndex a => [a]
  | _ => []

/-- The tail of the block index is already at the slot of the next block. -/
def Enqueue.ahead : Enqueue α → Bool
  | .loadPool .. | .fetchPool .. | .tryGet .. | .rewind _ | .resetEmpty .. | .publish .. => true
  | _ => false

/-- The block a producer has got and not yet put into its index. -/
def Enqueue.newBlock? : Enqueue α → Option BlockId
  | .resetEmpty _ _ b | .publish _ _ b => some b
  | _ => none

/-- What is in the place of element `n`. -/
def SubQueue.cell (v : SubQueue κ α) (e : Enqueue α) (n : Nat) : Option α :=
  if (v.status n).present then (v.items ++ e.pending)[n]? else none

/-- The counters are those of the view, and not too far apart. -/
structure CountersOk (v : SubQueue κ α) (p : ImplicitProducer) : Prop where
  tailIndex : p.tailIndex = word v.claims.tail
  headIndex : p.headIndex = word v.claims.head
  optimistic : p.dequeueOptimisticCount = word v.claims.optimistic
  overcommit : p.dequeueOvercommit = word v.claims.overcommit
  sound : v.claims.Sound
  window : v.claims.optimistic ≤ v.claims.head + 2 ^ 63 + 1
  length : v.items.length = v.claims.tail
  queued : ∀ n, v.status n = .queued ↔ v.claims.head ≤ n

/-- The block index has the keys it should have. -/
structure IndexOk (v : SubQueue κ α) (p : ImplicitProducer) (e : Enqueue α) : Prop where
  tail : p.tail = slot (if e.ahead then v.count else v.count + 31)
  keys : ∀ s, (p.index s).key = invalidBlockBase ∨ ∃ k, s = slot k ∧ (p.index s).key = key k
  used : ∀ k < v.count, (p.index (slot k)).key ≠ invalidBlockBase
  ahead : e.ahead = true → (p.index (slot v.count)).key ≠ invalidBlockBase

/-- The slot that is looked at is that of the next block. -/
theorem IndexOk.newTail_eq {s : SubQueue κ α} {p : ImplicitProducer} {e : Enqueue α}
    (h : IndexOk s p e) (ha : e.ahead = false) : p.newTail = slot s.count := by
  have htail := h.tail
  rw [ha] at htail
  rw [ImplicitProducer.newTail, htail, if_neg (by nofun), slot_succ, Nat.add_assoc, slot_add]

/-- No block that is still in use has the slot of the next block. -/
def SubQueue.Vacant (v : SubQueue κ α) : Prop :=
  ∀ k < v.count, v.phase k ≠ .freed → slot k ≠ slot v.count

/-- What a thread in `enqueue` relies on, once it has found room for another block. -/
structure Extending (v : SubQueue κ α) : Prop where
  boundary : 32 * v.count = v.claims.tail
  room : 32 * v.count + 32 ≤ v.claims.head + 64

theorem Extending.idle {s : SubQueue κ α} (h : Extending s) :
    32 * s.count < s.claims.tail + 32 := by
  have := h.boundary
  omega

/-- ... and a slot for it. -/
structure Inserting (v : SubQueue κ α) (s : Size) : Prop extends Extending v where
  slot_eq : s = slot v.count
  vacant : v.Vacant

/-- What a thread in `enqueue` relies on. -/
def EnqueueOk (v : SubQueue κ α) (p : ImplicitProducer) (blocks : BlockId → Block α)
    (owner : BlockId → Owner ι κ) (i : ι) : Enqueue α → Prop
  | .idle _ => 32 * v.count < v.claims.tail + 32
  | .loadHead _ => 32 * v.count = v.claims.tail
  | .insertEntry _ => Extending v
  | .storeKey _ s => Inserting v s
  | .storeTail _ s => Inserting v s ∧ (p.index s).key ≠ invalidBlockBase
  | .loadPool _ s | .fetchPool _ s | .tryGet _ s | .rewind s | .unpublish s => Inserting v s
  | .resetEmpty _ s b => Inserting v s ∧ owner b = .fresh i
  | .publish _ s b =>
      Inserting v s ∧ owner b = .fresh i ∧ (blocks b).elementsCompletelyDequeued = 0
  | .construct _ | .storeTailIndex _ => v.claims.tail < 32 * v.count
  | .undefined => False

variable [DecidableEq κ]

/-- The blocks in use are found through the index and hold what they should hold. -/
structure BlocksOk (v : SubQueue κ α) (p : ImplicitProducer) (e : Enqueue α)
    (blocks : BlockId → Block α) (owner : BlockId → Owner ι κ) (i : ι) : Prop where
  tail_le : v.claims.tail ≤ 32 * v.count
  le_tail : 32 * v.count ≤ v.claims.tail + 32
  le_head : 32 * v.count ≤ v.claims.head + 64
  tailBlock : ∀ k, v.count = k + 1 → p.tailBlock = some (v.block k)
  value : ∀ k < v.count, v.phase k ≠ .freed → (p.index (slot k)).value = some (v.block k)
  owner : ∀ k < v.count, v.phase k ≠ .freed → owner (v.block k) = .block i k
  counter : ∀ k < v.count, v.phase k = .inUse → (blocks (v.block k)).elementsCompletelyDequeued =
    tally (fun j => v.status (32 * k + j)) .gone 32
  inUse : ∀ k < v.count, v.phase k = .inUse → ∃ j < 32, v.status (32 * k + j) ≠ .gone
  drained : ∀ k < v.count, v.phase k ≠ .inUse → ∀ j < 32, v.status (32 * k + j) = .gone
  elements : ∀ k < v.count, v.phase k ≠ .freed → ∀ j < 32,
    (blocks (v.block k)).elements j = v.cell e (32 * k + j)

structure ProducerOk (v : SubQueue κ α) (p : ImplicitProducer) (e : Enqueue α)
    (blocks : BlockId → Block α) (owner : BlockId → Owner ι κ) (i : ι) : Prop where
  counters : CountersOk v p
  index : IndexOk v p e
  storage : BlocksOk v p e blocks owner i
  enqueue : EnqueueOk v p blocks owner i e

/-! ## Consumers -/

/-- Element `n` of `v` is with consumer `c`, as `status` says, and it is `hand`. -/
structure Holding (v : SubQueue κ α) (status : ItemStatus κ) (hand : Option α) (n : Nat) :
    Prop where
  status_eq : v.status n = status
  block_lt : n / 32 < v.count
  item : ∃ a, v.items[n]? = some a ∧ hand = some a

/-- What a thread in `dequeue` relies on. -/
def DequeueOk (v : ι → SubQueue κ α) (producers : ι → ImplicitProducer)
    (owner : BlockId → Owner ι κ) (hand : Option α) (c : κ) : Dequeue ι α → Prop
  | .idle _ | .loadTail _ | .loadOvercommit _ _ => hand = none
  | .loadOptimistic i _ o | .fetchOptimistic i o =>
      hand = none ∧ ∃ m, o = word m ∧ (v i).claims.claimant c = .looked m
  | .reloadTail i o x =>
      hand = none ∧ ∃ l m, o = word l ∧ x = word m ∧ (v i).claims.claimant c = .drawn l m
  | .fetchHead i => hand = none ∧ ∃ m, (v i).claims.claimant c = .admitted m
  | .fetchOvercommit i => hand = none ∧ ∃ m, (v i).claims.claimant c = .refused m
  | .loadIndexTail i x => ∃ n, x = word n ∧ Holding (v i) (.claimed c) hand n
  | .loadKey i x t => ∃ n, x = word n ∧ Holding (v i) (.claimed c) hand n ∧
      ((producers i).index t).key ≠ invalidBlockBase
  | .loadValue i x s => ∃ n, x = word n ∧ Holding (v i) (.claimed c) hand n ∧ s = slot (n / 32)
  | .take i x s b => ∃ n, x = word n ∧ Holding (v i) (.claimed c) hand n ∧ s = slot (n / 32) ∧
      b = (v i).block (n / 32)
  | .setEmpty i s b a => hand = some a ∧ ∃ n, Holding (v i) (.taken c) hand n ∧
      s = slot (n / 32) ∧ b = (v i).block (n / 32)
  | .clearValue i s b a => hand = some a ∧ ∃ k < (v i).count, (v i).phase k = .drained c ∧
      s = slot k ∧ b = (v i).block k
  | .addFree b a => hand = some a ∧ owner b = .retired c
  | .undefined => False

/-- The block a consumer has taken out of an index and not yet freed. -/
def Dequeue.oldBlock? : Dequeue ι α → Option BlockId
  | .addFree b _ => some b
  | _ => none

/-! ## Blocks -/

/-- The blocks that hold no element of a producer. -/
def Owner.Idle : Owner ι κ → Prop
  | .block _ _ => False
  | _ => True

/-- Where the code has the blocks that are idle. -/
def ConcurrentQueue.Has (q : ConcurrentQueue ι κ α) (b : BlockId) : Owner ι κ → Prop
  | .pool => q.initialBlockPoolIndex ≤ b ∨ q.initialBlockPoolSize ≤ b
  | .free => b ∈ q.freeList
  | .fresh i => (q.enq i).newBlock? = some b
  | .block _ _ => False
  | .retired c => (q.deq c).oldBlock? = some b

/-- Everybody's blocks are where `owner` says, and nobody else's. -/
structure PoolOk (v : View ι κ α) (q : ConcurrentQueue ι κ α) : Prop where
  idle : ∀ b o, o.Idle → (v.owner b = o ↔ q.Has b o)
  nodup : q.freeList.Nodup
  block : ∀ b i k, v.owner b = .block i k →
    k < (v.subQueue i).count ∧ (v.subQueue i).phase k ≠ .freed ∧ (v.subQueue i).block k = b
  raw : ∀ b, (v.owner b).Idle → ∀ j < 32, (q.blocks b).elements j = none

/-- `v` is a view of `q`. -/
structure Good (v : View ι κ α) (q : ConcurrentQueue ι κ α) : Prop where
  producer : ∀ i, ProducerOk (v.subQueue i) (q.producers i) (q.enq i) q.blocks v.owner i
  consumer : ∀ c, DequeueOk v.subQueue q.producers v.owner (v.hand c) c (q.deq c)
  pool : PoolOk v q

end Rtlog.Queue
