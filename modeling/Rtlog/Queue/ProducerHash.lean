/-
# `Rtlog.Queue.ProducerHash` — how a thread finds its producer

`get_or_add_implicit_producer` of `concurrentqueue.h`, one atomic operation a step.  The
producers of threads are in hash tables with open addressing, a chain of them, of which the
newest is the largest.  A thread looks for its id in all of them, the newest first; if it
finds it in an older one it copies the entry into the newest, and if in none it counts
itself in, sees to it that there is a table with room, and puts a new producer there.

    implicitProducerHash.load    loadMain      malloc                       mallocHash
    entries[index].key.load      probe         implicitProducerHash.store   publish
    entries[index].key.load      lazyProbe     ResizeInProgress.clear       clear
    entries[index].key.c_e_s     lazySwap      implicitProducerHash.load    loadAgain
    HashCount.fetch_add          fetchAdd      create<ImplicitProducer>     create
    ResizeInProgress.t_and_s     testAndSet    producerListTail.load        loadTail
    implicitProducerHash.load    reloadMain    producerListTail.c_e_w       pushTail
    HashCount.fetch_sub          fetchSub      entries[index].key.load      insertProbe
    ResizeInProgress.clear       clearFailed   entries[index].key.c_e_s     insertSwap
    HashCount.fetch_sub          undo

An entry's value is read and written by the thread of its key only, together with the key.
No producer is ever inactive, so none is recycled.

A thread is here its `thread_id()`, the address of a `thread_local` variable: `ι` are the
ids, and `place t` is where the thread is that has the id `t`.  Threads that are alive at
once have different ids.  A later thread may get the id of one that has ended, and as no
entry is ever taken out, it gets the producer too (`Rtlog.Queue.Threads`).
-/
import Rtlog.Base.Machine
import Rtlog.Base.Probing
import Rtlog.Base.Tickets

namespace Rtlog.Queue

/-- An `ImplicitProducer*` that is not null. -/
abbrev ProducerId := Nat

/-- An `ImplicitProducerHash*` that is not null. -/
abbrev HashId := Nat

variable {ι : Type}

structure ImplicitProducerHash (ι : Type) where
  capacity : Nat
  /-- `entries[index].key`; `invalid_thread_id` is `none`. -/
  key : Nat → Option ι
  /-- `entries[index].value` -/
  value : Nat → Option ProducerId
  prev : Option HashId

/-- `index & (capacity - 1)` -/
def ImplicitProducerHash.mask (hash : ImplicitProducerHash ι) (index : Nat) : Nat :=
  index &&& (hash.capacity - 1)

/-- `newCount >= (capacity >> 1)` -/
def ImplicitProducerHash.crowded (hash : ImplicitProducerHash ι) (newCount : Nat) : Bool :=
  hash.capacity >>> 1 ≤ newCount

/-- `newCount < (capacity >> 1) + (capacity >> 2)` -/
def ImplicitProducerHash.hasRoom (hash : ImplicitProducerHash ι) (newCount : Nat) : Bool :=
  newCount < (hash.capacity >>> 1) + (hash.capacity >>> 2)

/-- `while (newCount >= (newCapacity >> 1)) newCapacity <<= 1`, as many times as it takes. -/
def growCapacity (newCount : Nat) : Nat → Nat → Nat
  | 0, newCapacity => newCapacity
  | n + 1, newCapacity =>
      if newCapacity >>> 1 ≤ newCount then growCapacity newCount n (newCapacity <<< 1)
      else newCapacity

/-- Where a thread is.  `idle` knows what its last call returned. -/
inductive GetOrAdd where
  | idle (last : Option (Option ProducerId))
  | loadMain
  | probe (main hash : HashId) (index : Nat)
  | lazyProbe (main : HashId) (value : Option ProducerId) (index : Nat)
  | lazySwap (main : HashId) (value : Option ProducerId) (index : Nat)
  | fetchAdd (main : HashId)
  | testAndSet (main : HashId) (newCount : Nat)
  | reloadMain (newCount : Nat)
  | mallocHash (main : HashId) (newCount : Nat)
  | fetchSub
  | clearFailed
  | publish (newHash : HashId) (newCount : Nat)
  | clear (main : HashId) (newCount : Nat)
  | loadAgain (newCount : Nat)
  | create (main : HashId)
  | undo
  | loadTail (main : HashId) (producer : ProducerId)
  | pushTail (main : HashId) (producer : ProducerId) (prevTail : Option ProducerId)
  | insertProbe (main : HashId) (producer : ProducerId) (index : Nat)
  | insertSwap (main : HashId) (producer : ProducerId) (index : Nat)
  deriving DecidableEq

/-- The tables, and where the threads are, by their ids. -/
structure ProducerHash (ι : Type) where
  implicitProducerHash : HashId
  hashes : HashId → ImplicitProducerHash ι
  /-- How many tables have been allocated. -/
  allocated : Nat
  implicitProducerHashCount : Nat
  implicitProducerHashResizeInProgress : Bool
  /-- The producers that are linked, the newest first. -/
  producerListTail : List ProducerId
  /-- How many producers have been allocated. -/
  created : Nat
  place : ι → GetOrAdd

/-- What the thread with the id `t` does: `malloc t ok` is an allocation, and `weak t` a
`compare_exchange_weak` that fails for no reason. -/
inductive HashAction (ι : Type) where
  | call (t : ι)
  | next (t : ι)
  | malloc (t : ι) (ok : Bool)
  | weak (t : ι)

/-- The id of the thread that makes the step. -/
def HashAction.thread : HashAction ι → ι
  | .call t | .next t | .malloc t _ | .weak t => t

namespace ProducerHash

variable [DecidableEq ι] (hashedId : ι → Nat) (s : ProducerHash ι) (t : ι)

/-- After `populate_initial_implicit_producer_hash`. -/
def initial : ProducerHash ι where
  implicitProducerHash := 0
  hashes _ := ⟨32, fun _ => none, fun _ => none, none⟩
  allocated := 1
  implicitProducerHashCount := 0
  implicitProducerHashResizeInProgress := false
  producerListTail := []
  created := 0
  place _ := .idle none

def goto (p : GetOrAdd) : ProducerHash ι := { s with place := Function.update s.place t p }

/-- The table `main` with the entry of thread `t` at `index`. -/
def setEntry (main : HashId) (index : Nat) (value : Option ProducerId) : ProducerHash ι :=
  { s with
    hashes := Function.update s.hashes main
      { s.hashes main with
        key := Function.update (s.hashes main).key index (some t)
        value := Function.update (s.hashes main).value index value } }

/-- At the test whether there is room. -/
def room (main : HashId) (newCount : Nat) : GetOrAdd :=
  if (s.hashes main).hasRoom newCount then .create main else .loadAgain newCount

/-- At the top of the loop. -/
def enter (main : HashId) (newCount : Nat) : GetOrAdd :=
  if (s.hashes main).crowded newCount then .testAndSet main newCount else s.room main newCount

/-- What a thread does that has found `k` at `index` of `hash`. -/
def probed (main hash : HashId) (index : Nat) (k : ι) : GetOrAdd :=
  if k = t then
    if hash = main then .idle (some ((s.hashes hash).value index))
    else .lazyProbe main ((s.hashes hash).value index) (hashedId t)
  else .probe main hash (index + 1)

/-- What a thread does that has not found itself in `hash`. -/
def missed (main hash : HashId) : GetOrAdd :=
  match (s.hashes hash).prev with
  | some prev => .probe main prev (hashedId t)
  | none => .fetchAdd main

/-- The next step of the thread with the id `t`. -/
def nextStep : Option (ProducerHash ι) :=
  match s.place t with
  | .idle _ | .mallocHash .. | .create _ => none
  | .loadMain =>
      some (s.goto t (.probe s.implicitProducerHash s.implicitProducerHash (hashedId t)))
  | .probe main hash index =>
      let i := (s.hashes hash).mask index
      match (s.hashes hash).key i with
      | some k => some (s.goto t (s.probed hashedId t main hash i k))
      | none => some (s.goto t (s.missed hashedId t main hash))
  | .lazyProbe main value index =>
      let i := (s.hashes main).mask index
      match (s.hashes main).key i with
      | some _ => some (s.goto t (.lazyProbe main value (i + 1)))
      | none => some (s.goto t (.lazySwap main value i))
  | .lazySwap main value index =>
      match (s.hashes main).key index with
      | some _ => some (s.goto t (.lazyProbe main value (index + 1)))
      | none => some ((s.setEntry t main index value).goto t (.idle (some value)))
  | .fetchAdd main =>
      let newCount := s.implicitProducerHashCount + 1
      some ({ s with implicitProducerHashCount := newCount }.goto t (s.enter main newCount))
  | .testAndSet main newCount =>
      if s.implicitProducerHashResizeInProgress then some (s.goto t (s.room main newCount))
      else some ({ s with implicitProducerHashResizeInProgress := true }.goto t
        (.reloadMain newCount))
  | .reloadMain newCount =>
      let main := s.implicitProducerHash
      some (s.goto t (if (s.hashes main).crowded newCount then .mallocHash main newCount
        else .clear main newCount))
  | .fetchSub =>
      some ({ s with implicitProducerHashCount := s.implicitProducerHashCount - 1 }.goto t
        .clearFailed)
  | .clearFailed =>
      some ({ s with implicitProducerHashResizeInProgress := false }.goto t (.idle (some none)))
  | .publish newHash newCount =>
      some ({ s with implicitProducerHash := newHash }.goto t (.clear newHash newCount))
  | .clear main newCount =>
      some ({ s with implicitProducerHashResizeInProgress := false }.goto t
        (s.room main newCount))
  | .loadAgain newCount => some (s.goto t (s.enter s.implicitProducerHash newCount))
  | .undo =>
      some ({ s with implicitProducerHashCount := s.implicitProducerHashCount - 1 }.goto t
        (.idle (some none)))
  | .loadTail main producer =>
      some (s.goto t (.pushTail main producer s.producerListTail.head?))
  | .pushTail main producer prevTail =>
      if s.producerListTail.head? = prevTail then
        some ({ s with producerListTail := producer :: s.producerListTail }.goto t
          (.insertProbe main producer (hashedId t)))
      else some (s.goto t (.pushTail main producer s.producerListTail.head?))
  | .insertProbe main producer index =>
      let i := (s.hashes main).mask index
      match (s.hashes main).key i with
      | some _ => some (s.goto t (.insertProbe main producer (i + 1)))
      | none => some (s.goto t (.insertSwap main producer i))
  | .insertSwap main producer index =>
      match (s.hashes main).key index with
      | some _ => some (s.goto t (.insertProbe main producer (index + 1)))
      | none =>
          some ((s.setEntry t main index (some producer)).goto t (.idle (some (some producer))))

/-- An allocation of thread `t`. -/
def mallocStep (ok : Bool) : Option (ProducerHash ι) :=
  match s.place t, ok with
  | .mallocHash _ _, false => some (s.goto t .fetchSub)
  | .mallocHash main newCount, true =>
      let capacity := growCapacity newCount newCount ((s.hashes main).capacity <<< 1)
      some ({ s with
        hashes := Function.update s.hashes s.allocated
          ⟨capacity, fun _ => none, fun _ => none, some main⟩
        allocated := s.allocated + 1 }.goto t (.publish s.allocated newCount))
  | .create _, false => some (s.goto t .undo)
  | .create main, true =>
      some ({ s with created := s.created + 1 }.goto t (.loadTail main s.created))
  | _, _ => none

def step : HashAction ι → Option (ProducerHash ι)
  | .call t =>
      match s.place t with
      | .idle _ => some (s.goto t .loadMain)
      | _ => none
  | .next t => s.nextStep hashedId t
  | .malloc t ok => s.mallocStep t ok
  | .weak t =>
      match s.place t with
      | .pushTail main producer _ =>
          some (s.goto t (.pushTail main producer s.producerListTail.head?))
      | _ => none

def machine : Machine (ProducerHash ι) (HashAction ι) := ⟨step hashedId⟩

end ProducerHash

/-! ## What the callers see -/

namespace Registration

/-- The producer of a thread id comes into the list of producers, and a call returns. -/
inductive Event (ι : Type) where
  | listed (t : ι) (p : ProducerId)
  | answered (t : ι) (r : Option ProducerId)
  deriving DecidableEq

/-- Each thread id has one producer, and each producer one thread id. -/
inductive Next : List (ι × ProducerId) → Event ι → List (ι × ProducerId) → Prop
  | listed {l : List (ι × ProducerId)} {t : ι} {p : ProducerId}
      (ht : ∀ x ∈ l, x.1 ≠ t) (hp : ∀ x ∈ l, x.2 ≠ p) : Next l (.listed t p) ((t, p) :: l)
  | found {l : List (ι × ProducerId)} {t : ι} {p : ProducerId} (h : (t, p) ∈ l) :
      Next l (.answered t (some p)) l
  | failed {l : List (ι × ProducerId)} {t : ι} (h : ∀ x ∈ l, x.1 ≠ t) :
      Next l (.answered t none) l

end Registration

/-- What a step of thread `t` shows. -/
def ProducerHash.event (s : ProducerHash ι) (a : HashAction ι) (s' : ProducerHash ι) :
    Option (Registration.Event ι) :=
  match a with
  | .call _ | .malloc .. | .weak _ => none
  | .next t =>
      match s.place t, s'.place t with
      | .pushTail .., .insertProbe _ p _ => some (.listed t p)
      | _, .idle (some r) => some (.answered t r)
      | _, _ => none

end Rtlog.Queue
