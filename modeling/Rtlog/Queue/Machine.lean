/-
# `Rtlog.Queue.Machine` — the queue, one atomic operation a step

`concurrentqueue.h` as `rtlog` uses it: `try_enqueue` without a token, so every
producer is an implicit one, and `try_dequeue` without a token.  The template
is taken at the traits of `Traits.hpp`.

A queue has a sub-queue for each producer.  Its elements are in blocks of
`BLOCK_SIZE`, which are found through a circular block index, and four counters
that only grow, modulo `2 ^ 64`, say where it stands.  Blocks come from an
initial pool, and go to a free list when they are empty.

One step is one atomic operation of one thread, together with what the thread
does on its own up to the next one, and the steps of the threads interleave:

    try_enqueue                             try_dequeue, on one producer
      headIndex.load          loadHead        tailIndex.load           loadTail
      value.load              insertEntry     dequeueOvercommit.load   loadOvercommit
      key.store               storeKey        OptimisticCount.load     loadOptimistic
      blockIndex->tail.store  storeTail       OptimisticCount.f_add    fetchOptimistic
      PoolIndex.load          loadPool        tailIndex.load           reloadTail
      PoolIndex.fetch_add     fetchPool       headIndex.fetch_add      fetchHead
      freeList.try_get        tryGet          blockIndex->tail.load    loadIndexTail
      blockIndex->tail.store  rewind          key.load                 loadKey
      value.store(nullptr)    unpublish       value.load               loadValue
      counter.store(0)        resetEmpty      move, destroy            take
      value.store             publish         counter.fetch_add        setEmpty
      construct               construct       value.store(nullptr)     clearValue
      tailIndex.store         storeTailIndex  freeList.add             addFree
                                              Overcommit.fetch_add     fetchOvercommit

The interleaving is sequentially consistent, while the source asks for less at
most of these.  The free list is a bag here, from which `try_get` takes some
block or says that there is none; its own code is put in the place of the bag in
`Rtlog.Queue.Recycling`.  A message is moved without throwing.
-/
import Rtlog.Base.Machine
import Rtlog.Base.Circular

namespace Rtlog.Queue

/-! ## Sizes and indices -/

/-- `size_t`, which is also `index_t`. -/
abbrev Size := BitVec 64

/-- A `Block*` that is not null. -/
abbrev BlockId := Nat

/-- `BLOCK_SIZE`. -/
def blockSize : Size := 32#64

/-- `IMPLICIT_INITIAL_INDEX_SIZE`, the capacity of a block index that never grows. -/
def implicitInitialIndexSize : Size := 32#64

/-- `const_numeric_max<size_t>::value`. -/
def numericMax : Size := BitVec.allOnes 64

/-- `ConcurrentQueue::MAX_SUBQUEUE_SIZE`, from the 64 of `ConcurrentQueueTraits`. -/
def maxSubqueueSize : Size :=
  if numericMax - 64#64 < blockSize then numericMax
  else (64#64 + (blockSize - 1#64)) / blockSize * blockSize

/-- `INVALID_BLOCK_BASE`. -/
def invalidBlockBase : Size := 1#64

/-- `circular_less_than` -/
def circularLessThan (a b : Size) : Bool := Circular.less a b

/-- Position of an index in its block, as in `Block::operator[]`. -/
def pos (i : Size) : Nat := (i &&& (blockSize - 1#64)).toNat

/-- `get_block_index_index_for_index`, from the `tail` of the block index and the key
found there.  `BLOCK_SIZE` is unsigned, and so is the division. -/
def indexIndex (index tail tailBase : Size) : Size :=
  (tail + ((index &&& ~~~(blockSize - 1#64)) - tailBase) / blockSize) &&&
    (implicitInitialIndexSize - 1#64)

/-! ## Blocks and producers -/

variable {ι κ α : Type}

structure Block (α : Type) where
  /-- Raw storage is `none`. -/
  elements : Nat → Option α
  elementsCompletelyDequeued : Nat

structure BlockIndexEntry where
  key : Size
  value : Option BlockId

/-- `ProducerBase`, and the one `BlockIndexHeader` of an `ImplicitProducer`. -/
structure ImplicitProducer where
  tailIndex : Size
  headIndex : Size
  dequeueOptimisticCount : Size
  dequeueOvercommit : Size
  tailBlock : Option BlockId
  /-- `blockIndex != nullptr`: the allocation in the constructor succeeded. -/
  blockIndex : Bool
  tail : Size
  index : Size → BlockIndexEntry

/-- After the constructor; the values of the entries are not initialised. -/
def ImplicitProducer.new (blockIndex : Bool) (value : Size → Option BlockId) :
    ImplicitProducer where
  tailIndex := 0#64
  headIndex := 0#64
  dequeueOptimisticCount := 0#64
  dequeueOvercommit := 0#64
  tailBlock := none
  blockIndex := blockIndex
  tail := (0#64 - 1#64) &&& (implicitInitialIndexSize - 1#64)
  index slot := ⟨invalidBlockBase, value slot⟩

/-- Where a thread is in `enqueue`, with the element and the local variables it still
needs.  `idle` knows what the last call returned. -/
inductive Enqueue (α : Type) where
  | idle (last : Option Bool)
  | loadHead (element : α)
  | insertEntry (element : α)
  | storeKey (element : α) (newTail : Size)
  | storeTail (element : α) (newTail : Size)
  | loadPool (element : α) (idxEntry : Size)
  | fetchPool (element : α) (idxEntry : Size)
  | tryGet (element : α) (idxEntry : Size)
  | rewind (idxEntry : Size)
  | unpublish (idxEntry : Size)
  | resetEmpty (element : α) (idxEntry : Size) (newBlock : BlockId)
  | publish (element : α) (idxEntry : Size) (newBlock : BlockId)
  | construct (element : α)
  | storeTailIndex (element : α)
  /-- Past a null `tailBlock`. -/
  | undefined
  deriving DecidableEq

/-- Where a thread is in `dequeue` on producer `i`.  `idle` knows what the last call
returned: `some none` is `false`, `some (some a)` is `true` with `a` moved out. -/
inductive Dequeue (ι α : Type) where
  | idle (last : Option (Option α))
  | loadTail (i : ι)
  | loadOvercommit (i : ι) (tail : Size)
  | loadOptimistic (i : ι) (tail overcommit : Size)
  | fetchOptimistic (i : ι) (overcommit : Size)
  | reloadTail (i : ι) (overcommit myDequeueCount : Size)
  | fetchHead (i : ι)
  | loadIndexTail (i : ι) (index : Size)
  | loadKey (i : ι) (index tail : Size)
  | loadValue (i : ι) (index entry : Size)
  | take (i : ι) (index entry : Size) (block : BlockId)
  | setEmpty (i : ι) (entry : Size) (block : BlockId) (element : α)
  | clearValue (i : ι) (entry : Size) (block : BlockId) (element : α)
  | addFree (block : BlockId) (element : α)
  | fetchOvercommit (i : ι)
  /-- Past a null block or storage without an element. -/
  | undefined
  deriving DecidableEq

/-- The queue, and where its threads are in it. -/
structure ConcurrentQueue (ι κ α : Type) where
  producers : ι → ImplicitProducer
  blocks : BlockId → Block α
  /-- The blocks of the initial pool are those below this. -/
  initialBlockPoolSize : Nat
  initialBlockPoolIndex : Nat
  freeList : List BlockId
  enq : ι → Enqueue α
  deq : κ → Dequeue ι α

/-- What a thread does next. -/
inductive Action (ι κ α : Type) where
  /-- The thread of producer `i` calls `try_enqueue`. -/
  | tryEnqueue (i : ι) (element : α)
  | enqueue (i : ι)
  /-- `freeList.try_get()` in `enqueue`, with what it returns. -/
  | tryGet (i : ι) (got : Option BlockId)
  /-- Thread `c` calls `dequeue` on producer `i`. -/
  | tryDequeue (c : κ) (i : ι)
  | dequeue (c : κ)

/-! ## Updates -/

namespace ConcurrentQueue

variable [DecidableEq ι] [DecidableEq κ]

def setProducer (q : ConcurrentQueue ι κ α) (i : ι) (p : ImplicitProducer) :
    ConcurrentQueue ι κ α := { q with producers := Function.update q.producers i p }

def setBlock (q : ConcurrentQueue ι κ α) (b : BlockId) (block : Block α) :
    ConcurrentQueue ι κ α := { q with blocks := Function.update q.blocks b block }

def setEnq (q : ConcurrentQueue ι κ α) (i : ι) (e : Enqueue α) : ConcurrentQueue ι κ α :=
  { q with enq := Function.update q.enq i e }

def setDeq (q : ConcurrentQueue ι κ α) (c : κ) (d : Dequeue ι α) : ConcurrentQueue ι κ α :=
  { q with deq := Function.update q.deq c d }

end ConcurrentQueue

/-- `entry->value.store(value)` -/
def ImplicitProducer.setValue (p : ImplicitProducer) (entry : Size) (value : Option BlockId) :
    ImplicitProducer :=
  { p with index := Function.update p.index entry { p.index entry with value := value } }

/-- `entry->key.store(key)` -/
def ImplicitProducer.setKey (p : ImplicitProducer) (entry key : Size) : ImplicitProducer :=
  { p with index := Function.update p.index entry { p.index entry with key := key } }

@[simp] theorem ImplicitProducer.key_setValue (p : ImplicitProducer) (entry s : Size)
    (value : Option BlockId) : ((p.setValue entry value).index s).key = (p.index s).key := by
  rcases eq_or_ne s entry with rfl | hne
  · simp only [setValue, Function.update_self]
  · simp only [setValue, Function.update_of_ne hne]

/-- Storing into one element, or emptying it. -/
def Block.setElement (b : Block α) (n : Nat) (a : Option α) : Block α :=
  { b with elements := Function.update b.elements n a }

/-! ## `enqueue` -/

/-- The test at the end of a block: `true` if a new one would exceed the limits. -/
def ImplicitProducer.full (p : ImplicitProducer) : Bool :=
  !circularLessThan p.headIndex (p.tailIndex + blockSize) ||
    (maxSubqueueSize ≠ numericMax &&
      (maxSubqueueSize = 0#64 || maxSubqueueSize - blockSize < p.tailIndex - p.headIndex))

/-- The slot `insert_block_index_entry` looks at. -/
def ImplicitProducer.newTail (p : ImplicitProducer) : Size :=
  (p.tail + 1#64) &&& (implicitInitialIndexSize - 1#64)

/-- `insert_block_index_entry` finds room. -/
def ImplicitProducer.hasRoom (p : ImplicitProducer) : Bool :=
  p.blockIndex && ((p.index p.newTail).key = invalidBlockBase ||
    (p.index p.newTail).value = none)

/-- Entering `enqueue`: `tailIndex` is written by this thread only. -/
def ImplicitProducer.enter (p : ImplicitProducer) (element : α) : Enqueue α :=
  if p.tailIndex &&& (blockSize - 1#64) = 0#64 then .loadHead element else .construct element

namespace ConcurrentQueue

variable [DecidableEq ι] [DecidableEq κ]

/-- The next step of the thread of producer `i`, inside `enqueue`. -/
def enqueueStep (q : ConcurrentQueue ι κ α) (i : ι) : Option (ConcurrentQueue ι κ α) :=
  let p := q.producers i
  match q.enq i with
  | .idle _ | .tryGet .. | .undefined => none
  | .loadHead a =>
      some (q.setEnq i (if p.full then .idle (some false) else .insertEntry a))
  | .insertEntry a =>
      some (q.setEnq i (if p.hasRoom then .storeKey a p.newTail else .idle (some false)))
  | .storeKey a newTail =>
      some ((q.setProducer i (p.setKey newTail p.tailIndex)).setEnq i (.storeTail a newTail))
  | .storeTail a newTail =>
      some ((q.setProducer i { p with tail := newTail }).setEnq i (.loadPool a newTail))
  | .loadPool a entry =>
      some (q.setEnq i (if q.initialBlockPoolSize ≤ q.initialBlockPoolIndex then .tryGet a entry
        else .fetchPool a entry))
  | .fetchPool a entry =>
      let index := q.initialBlockPoolIndex
      some ({ q with initialBlockPoolIndex := index + 1 }.setEnq i
        (if index < q.initialBlockPoolSize then .resetEmpty a entry index else .tryGet a entry))
  | .rewind entry =>
      let tail := (p.tail - 1#64) &&& (implicitInitialIndexSize - 1#64)
      some ((q.setProducer i { p with tail := tail }).setEnq i (.unpublish entry))
  | .unpublish entry =>
      some ((q.setProducer i (p.setValue entry none)).setEnq i (.idle (some false)))
  | .resetEmpty a entry b =>
      some ((q.setBlock b { q.blocks b with elementsCompletelyDequeued := 0 }).setEnq i
        (.publish a entry b))
  | .publish a entry b =>
      some ((q.setProducer i { p.setValue entry (some b) with tailBlock := some b }).setEnq i
        (.construct a))
  | .construct a =>
      match p.tailBlock with
      | none => some (q.setEnq i .undefined)
      | some b =>
          some ((q.setBlock b ((q.blocks b).setElement (pos p.tailIndex) (some a))).setEnq i
            (.storeTailIndex a))
  | .storeTailIndex _ =>
      some ((q.setProducer i { p with tailIndex := p.tailIndex + 1#64 }).setEnq i
        (.idle (some true)))

/-- `try_get` returns `got`, which is then no longer in the free list. -/
def tryGetStep (q : ConcurrentQueue ι κ α) (i : ι) (got : Option BlockId) :
    Option (ConcurrentQueue ι κ α) :=
  match q.enq i, got with
  | .tryGet _ entry, none => some (q.setEnq i (.rewind entry))
  | .tryGet a entry, some b =>
      if b ∈ q.freeList then
        some ({ q with freeList := q.freeList.erase b }.setEnq i (.resetEmpty a entry b))
      else none
  | _, _ => none

/-! ## `dequeue` -/

/-- The next step of thread `c`, inside `dequeue`. -/
def dequeueStep (q : ConcurrentQueue ι κ α) (c : κ) : Option (ConcurrentQueue ι κ α) :=
  match q.deq c with
  | .idle _ | .undefined => none
  | .loadTail i => some (q.setDeq c (.loadOvercommit i (q.producers i).tailIndex))
  | .loadOvercommit i tail =>
      some (q.setDeq c (.loadOptimistic i tail (q.producers i).dequeueOvercommit))
  | .loadOptimistic i tail overcommit =>
      some (q.setDeq c
        (if circularLessThan ((q.producers i).dequeueOptimisticCount - overcommit) tail then
          .fetchOptimistic i overcommit else .idle (some none)))
  | .fetchOptimistic i overcommit =>
      let p := q.producers i
      some ((q.setProducer i
        { p with dequeueOptimisticCount := p.dequeueOptimisticCount + 1#64 }).setDeq c
        (.reloadTail i overcommit p.dequeueOptimisticCount))
  | .reloadTail i overcommit myDequeueCount =>
      some (q.setDeq c
        (if circularLessThan (myDequeueCount - overcommit) (q.producers i).tailIndex then
          .fetchHead i else .fetchOvercommit i))
  | .fetchHead i =>
      let p := q.producers i
      some ((q.setProducer i { p with headIndex := p.headIndex + 1#64 }).setDeq c
        (.loadIndexTail i p.headIndex))
  | .loadIndexTail i index => some (q.setDeq c (.loadKey i index (q.producers i).tail))
  | .loadKey i index tail =>
      some (q.setDeq c
        (.loadValue i index (indexIndex index tail ((q.producers i).index tail).key)))
  | .loadValue i index entry =>
      some (q.setDeq c (match ((q.producers i).index entry).value with
        | none => .undefined
        | some b => .take i index entry b))
  | .take i index entry b =>
      match (q.blocks b).elements (pos index) with
      | none => some (q.setDeq c .undefined)
      | some a =>
          some ((q.setBlock b ((q.blocks b).setElement (pos index) none)).setDeq c
            (.setEmpty i entry b a))
  | .setEmpty i entry b a =>
      let prevVal := (q.blocks b).elementsCompletelyDequeued
      some ((q.setBlock b { q.blocks b with elementsCompletelyDequeued := prevVal + 1 }).setDeq c
        (if prevVal = blockSize.toNat - 1 then .clearValue i entry b a
          else .idle (some (some a))))
  | .clearValue i entry b a =>
      some ((q.setProducer i ((q.producers i).setValue entry none)).setDeq c (.addFree b a))
  | .addFree b a =>
      some ({ q with freeList := b :: q.freeList }.setDeq c (.idle (some (some a))))
  | .fetchOvercommit i =>
      let p := q.producers i
      some ((q.setProducer i { p with dequeueOvercommit := p.dequeueOvercommit + 1#64 }).setDeq c
        (.idle (some none)))

/-! ## The machine -/

def step (q : ConcurrentQueue ι κ α) : Action ι κ α → Option (ConcurrentQueue ι κ α)
  | .tryEnqueue i a =>
      match q.enq i with
      | .idle _ => some (q.setEnq i ((q.producers i).enter a))
      | _ => none
  | .enqueue i => q.enqueueStep i
  | .tryGet i got => q.tryGetStep i got
  | .tryDequeue c i =>
      match q.deq c with
      | .idle _ => some (q.setDeq c (.loadTail i))
      | _ => none
  | .dequeue c => q.dequeueStep c

def machine : Machine (ConcurrentQueue ι κ α) (Action ι κ α) := ⟨step⟩

/-- After the constructor, with producers that are constructed but have not been used.
What memory that is not initialised holds is arbitrary. -/
def initial (blockCount : Nat) (blockIndex : ι → Bool) (value : ι → Size → Option BlockId) :
    ConcurrentQueue ι κ α where
  producers i := .new (blockIndex i) (value i)
  blocks _ := ⟨fun _ => none, 0⟩
  initialBlockPoolSize := blockCount
  initialBlockPoolIndex := 0
  freeList := []
  enq _ := .idle none
  deq _ := .idle none

end ConcurrentQueue

end Rtlog.Queue
